import Hypertrie.QueryProduct

/-! The components of a graph with their operands, and the operator that combines the
results of the Cartesian components. -/

namespace Hypertrie

open UnorderedMap Weighted LabelledOperand Assignment FullCartesianResult

variable {M : Type → Type → Type} [UnorderedMap M] {K V D : Type}


namespace Query

section ComponentOperands

variable {operands : List (LabelledOperand K V)} {vs : List Nat} {cs : List (List Nat)}
variable {g : DirectedLabelledGraph}

/-- The operands of some vertices. -/
def componentOperands (operands : List (LabelledOperand K V)) (vs : List Nat) :
    List (LabelledOperand K V) :=
  vs.filterMap (operands[·]?)

theorem componentOperands_cons {v : Nat} (hv : v < operands.length) (vs : List Nat) :
    componentOperands operands (v :: vs) = operands[v] :: componentOperands operands vs := by
  rw [componentOperands, List.filterMap_cons, List.getElem?_eq_getElem hv]
  rfl

theorem mem_of_mem_componentOperands {o : LabelledOperand K V} (h : o ∈ componentOperands operands vs) :
    o ∈ operands := by
  obtain ⟨v, -, hv⟩ := List.mem_filterMap.mp h
  exact List.mem_of_getElem? hv

theorem length_componentOperands (h : ∀ v ∈ vs, v < operands.length) :
    (componentOperands operands vs).length = vs.length := by
  induction vs with
  | nil => rfl
  | cons v vs ih =>
    obtain ⟨hv, h⟩ := List.forall_mem_cons.mp h
    rw [componentOperands_cons hv, List.length_cons, List.length_cons, ih h]

theorem varIds_componentOperands (hg : g.varIds = operands.map (·.labels))
    (h : ∀ v ∈ vs, v < operands.length) :
    (g.subgraph vs).varIds = (componentOperands operands vs).map (·.labels) := by
  show vs.map g.operandVarIds = _
  induction vs with
  | nil => rfl
  | cons v vs ih =>
    obtain ⟨hv, h⟩ := List.forall_mem_cons.mp h
    have hlt : v < (operands.map (·.labels)).length := by rwa [List.length_map]
    rw [componentOperands_cons hv, List.map_cons, List.map_cons, ih h,
      DirectedLabelledGraph.operandVarIds, hg, List.getD_eq_getElem _ _ hlt, List.getElem_map]

/-- The operands are found at positions that fit into a byte. -/
theorem mapM_componentOperands {read : Nat → Option (ConstHypertrie K V)}
    (hread : ∀ v ∈ vs, read v = (operands.map (·.hypertrie))[v]?)
    (h : ∀ v ∈ vs, v < operands.length) :
    vs.mapM read = some ((componentOperands operands vs).map (·.hypertrie)) := by
  induction vs with
  | nil => rfl
  | cons v vs ih =>
    obtain ⟨hv, h⟩ := List.forall_mem_cons.mp h
    obtain ⟨hhead, hread⟩ := List.forall_mem_cons.mp hread
    rw [List.mapM_cons, hhead, ih hread h, componentOperands_cons hv, List.getElem?_map,
      List.getElem?_eq_getElem hv]
    rfl

theorem operandsAt_eq (hlen : operands.length ≤ posTypeCount) (h : ∀ v ∈ vs, v < operands.length) :
    operandsAt vs (operands.map (·.hypertrie)) =
      some ((componentOperands operands vs).map (·.hypertrie)) := by
  refine mapM_componentOperands (fun v hv => ?_) h
  rw [Nat.mod_eq_of_lt ((h v hv).trans_le hlen)]

theorem componentOperands_range (operands : List (LabelledOperand K V)) :
    componentOperands operands (List.range operands.length) = operands := by
  apply List.ext_getElem
  · rw [length_componentOperands fun v hv => List.mem_range.mp hv, List.length_range]
  · intro i hi hi'
    have hmap : componentOperands operands (List.range operands.length) =
        (List.range operands.length).filterMap (fun v => some (operands.getD v operands[i])) :=
      List.filterMap_congr fun v hv => by
        rw [List.getElem?_eq_getElem (List.mem_range.mp hv),
          List.getD_eq_getElem _ _ (List.mem_range.mp hv)]
    simp only [hmap, List.filterMap_eq_map', List.getElem_map, List.getElem_range,
      List.getD_eq_getElem _ _ hi']

/-- The operands of all components are the operands. -/
theorem perm_componentOperands (h : cs.flatten.Perm (List.range operands.length)) :
    (cs.map (componentOperands operands)).flatten.Perm operands := by
  have hflat : (cs.map (componentOperands operands)).flatten =
      componentOperands operands cs.flatten := List.filterMap_flatten.symm
  rw [hflat]
  conv_rhs => rw [← componentOperands_range operands]
  exact h.filterMap _

end ComponentOperands

variable [Inhabited K]

section Conjunctions

variable {t : HypertrieTrait K V} {F : Nat → Finset (SingleEntry K V) → Prop}
variable {ns : NodeStorage M K V} {operands : List (LabelledOperand K V)} {projVars : List Label}
variable {g : DirectedLabelledGraph} {vs : List Nat}

theorem Problem.componentOperands (hp : Problem t F ns operands projVars)
    (hle : vs.length ≤ operands.length) (h : ∀ v ∈ vs, v < operands.length) :
    Problem t F ns (componentOperands operands vs) projVars :=
  ⟨fun o ho => hp.valid o (mem_of_mem_componentOperands ho),
    (length_componentOperands h).trans_le (hle.trans hp.length), hp.nodup⟩

namespace Conjunction

theorem vertices_eq (hc : Conjunction t F ns g operands projVars) :
    g.vertices = List.range operands.length := by
  rw [DirectedLabelledGraph.vertices, hc.size_eq]

theorem lt_of_component (hc : Conjunction t F ns g operands projVars)
    (hvs : vs ∈ g.cartesianComponents) : ∀ v ∈ vs, v < operands.length :=
  fun _ hv => (lt_of_mem_cartesianComponents hvs hv).trans_eq hc.size_eq

/-- A component is a conjunction. -/
theorem component (hc : Conjunction t F ns g operands projVars) (hvs : vs ∈ g.cartesianComponents) :
    Conjunction t F ns (g.subgraph vs) (componentOperands operands vs) projVars := by
  have hlt := hc.lt_of_component hvs
  have hle : vs.length ≤ operands.length := by
    have hle := (Components.sublist_of_mem hvs).length_le
    rwa [hc.vertices_eq, List.length_range] at hle
  exact .of_block (Problem.componentOperands hc.problem hle hlt) (hc.block.cartesianComponent hvs)
    (varIds_componentOperands hc.varIds hlt)

/-- The components group the operands by their variables. -/
theorem grouping (hc : Conjunction t F ns g operands projVars) {cs : List (List Nat)}
    (hperm : cs.Perm g.cartesianComponents) :
    Grouping operands (cs.map (componentOperands operands)) := by
  have hflat : cs.flatten.Perm (List.range operands.length) := by
    rw [← hc.vertices_eq]
    exact hperm.flatten.trans (Components.perm_flatten (DirectedLabelledGraph.nodup_vertices g))
  refine ⟨perm_componentOperands hflat, ?_⟩
  rw [List.pairwise_map]
  have hdisjoint := (hperm.pairwise_iff fun h => h.symm).mpr hc.block.disjoint_operandsVarIdsSet
  refine hdisjoint.imp_of_mem fun {vs vs'} hvs hvs' hdisj => Finset.disjoint_left.mpr fun l hl hl' => ?_
  exact hdisj ((hc.component (hperm.mem_iff.mp hvs)).mem_operandsVarIdsSet.mpr hl)
    ((hc.component (hperm.mem_iff.mp hvs')).mem_operandsVarIdsSet.mpr hl')

omit [Inhabited K] in
theorem labelSet_componentOperands_subset (operands : List (LabelledOperand K V)) (vs : List Nat) :
    labelSet (componentOperands operands vs) ⊆ labelSet operands := by
  intro l hl
  obtain ⟨o, ho, hl⟩ := mem_labelSet.mp hl
  exact mem_labelSet.mpr ⟨o, mem_of_mem_componentOperands ho, hl⟩

theorem measure_component (hc : Conjunction t F ns g operands projVars)
    (hlen : 1 < g.cartesianComponents.length) (hvs : vs ∈ g.cartesianComponents) :
    measure (componentOperands operands vs) < measure operands := by
  have hcard := Finset.card_le_card (labelSet_componentOperands_subset operands vs)
  have hlt := Components.length_lt (DirectedLabelledGraph.nodup_vertices g) hlen hvs
  rw [hc.vertices_eq, List.length_range] at hlt
  rw [measure, measure, length_componentOperands (hc.lt_of_component hvs)]
  omega

/-- A component writes to the places of its variables. -/
theorem places_component (hc : Conjunction t F ns g operands projVars)
    (hvs : vs ∈ g.cartesianComponents) : Places projVars (labelSet (componentOperands operands vs))
      ((CartesianOperator.component g vs).resultPoss projVars) := by
  intro pos
  rw [Component.mem_resultPoss, mem_resultPoss]
  constructor
  · rintro ⟨l, hl, hpos⟩
    exact ⟨l, (hc.component hvs).mem_operandsVarIdsSet.mp hl, projectedVarPosition_spec hpos⟩
  · rintro ⟨l, hl, hpos⟩
    obtain ⟨hlt, hget⟩ := List.getElem?_eq_some_iff.mp hpos
    refine ⟨l, (hc.component hvs).mem_operandsVarIdsSet.mpr hl, ?_⟩
    rw [projectedVarPosition_eq hc.problem.nodup, if_pos (List.mem_of_getElem? hpos), ← hget,
      hc.problem.nodup.idxOf_getElem pos hlt]

end Conjunction

end Conjunctions

namespace CartesianOperator

section Components

variable {t : HypertrieTrait K V} {F : Nat → Finset (SingleEntry K V) → Prop}
variable {ns : NodeStorage M K V} {c : Choices K V D} {boolValued isOptional : Bool} {n : Nat}
variable {sub : GraphOperator K V} {operands group : List (LabelledOperand K V)} {projVars : List Label}
variable {g : DirectedLabelledGraph} {e : Entry K} {vs : List Nat} {ds : List (List Nat)}
variable {groups : List (List (LabelledOperand K V))} {outs : List (List (Entry K))}

theorem extractOperands_component (hc : Conjunction t F ns g operands projVars)
    (hvs : vs ∈ g.cartesianComponents) :
    (component g vs).extractOperands (operands.map (·.hypertrie)) =
      some ((componentOperands operands vs).map (·.hypertrie)) := by
  rw [Component.extractOperands, component, List.mapM_map]
  refine mapM_componentOperands (fun v hv => ?_) (hc.lt_of_component hvs)
  have hlt : v < 2 ^ 8 := (hc.lt_of_component hvs v hv).trans_le hc.problem.length
  rw [Function.comp_apply, BitVec.toNat_ofNat, Nat.mod_eq_of_lt hlt]

variable [DecidableEq K]

/-- What is collected of a component. -/
structure Precalculated (boolValued : Bool) (projVars : List Label)
    (group : List (LabelledOperand K V)) (out : List (Entry K)) : Prop where
  ne_nil : out ≠ []
  nodup : (out.map (·.key)).Nodup
  lists : Lists (!boolValued) out (solutions group) (groupPart projVars group).reading

/-- What a component generates for an entry without bound keys. -/
theorem generated_spec (hs : sub.Right t F ns boolValued projVars n)
    (hc : Conjunction t F ns g group projVars) (hn : measure group < n)
    (hnot : allResultDone projVars g = false) :
    Ensures ((sub.generator g (group.map (·.hypertrie)) (subEntryArg projVars)).map Prod.fst)
      (fun out => Lists (!boolValued) out (solutions group) (groupPart projVars group).reading) :=
  Ensures.map ((hs.generator _ _ _ hc hn List.length_replicate hnot).mono fun _ h => h.2)

/-- The results of a component list its solutions. -/
theorem subResult_spec (hs : sub.Right t F ns boolValued projVars n)
    (hc : Conjunction t F ns g operands projVars) (hvs : vs ∈ g.cartesianComponents)
    (hn : measure (componentOperands operands vs) < n) :
    Ensures (subResult M .exact boolValued projVars (componentOperator sub g) (component g vs)
      ((componentOperands operands vs).map (·.hypertrie))) (fun result =>
        (((UnorderedMap.entries result).map fun e => (⟨e.1, e.2⟩ : Entry K)).map (·.key)).Nodup ∧
        Lists (!boolValued) ((UnorderedMap.entries result).map fun e => (⟨e.1, e.2⟩ : Entry K))
          (solutions (componentOperands operands vs))
          (groupPart projVars (componentOperands operands vs)).reading) := by
  have hcomp := hc.component hvs
  have hgraph : componentGraph g (component g vs) = g.subgraph vs :=
    componentGraph_component fun v hv => (hc.lt_of_component hvs v hv).trans_le hc.problem.length
  have hl : (subEntryArg (K := K) projVars).key.length = projVars.length := List.length_replicate
  rw [subResult]
  by_cases hdone : (component g vs).allResultDone projVars = true
  · rw [if_pos hdone]
    simp only [componentOperator, hgraph]
    refine Ensures.bind (hs.singleResult _ _ _ hcomp hn hl hdone) ?_
    rintro e' ⟨hkey, hcount⟩
    have hread (σ : Label → K) : (groupPart projVars (componentOperands operands vs)).reading σ =
        e'.key := (fill_eq_self hl (hcomp.done_iff.mp hdone)).trans hkey.symm
    have hlists := hcount.lists fun σ _ => hread σ
    refine Ensures.pure ?_
    by_cases hv : e'.value ≠ 0
    · rw [if_pos hv] at hlists ⊢
      rw [entries_assign_empty]
      exact ⟨List.nodup_singleton _, hlists⟩
    · rw [if_neg hv] at hlists ⊢
      rw [UnorderedMap.entries_empty]
      exact ⟨List.nodup_nil, hlists⟩
  · rw [if_neg hdone]
    have hnot : allResultDone projVars (g.subgraph vs) = false := (Bool.not_eq_true _).mp hdone
    simp only [componentOperator, hgraph]
    refine Ensures.bind (generated_spec hs hcomp hn hnot) fun out hlists => Ensures.pure ?_
    exact ⟨Hypertrie.CartesianOperator.nodup_collected boolValued out,
      Hypertrie.CartesianOperator.collected_spec hlists⟩

/-- A component with its operands. -/
def withOperands (g : DirectedLabelledGraph) (operands : List (LabelledOperand K V)) (vs : List Nat) :
    Component × List (ConstHypertrie K V) :=
  (component g vs, (componentOperands operands vs).map (·.hypertrie))

/-- The results of the components, or one of them has none. -/
def SubResultsRight (boolValued : Bool) (projVars : List Label)
    (groups : List (List (LabelledOperand K V))) : Option (List (List (Entry K))) → Prop
  | none => ∃ group ∈ groups, ¬ (solutions group).Nonempty
  | some outs => List.Forall₂ (Precalculated boolValued projVars) groups outs

theorem getSubResults_right (hs : sub.Right t F ns boolValued projVars n)
    (hc : Conjunction t F ns g operands projVars)
    (hds : ∀ vs ∈ ds, vs ∈ g.cartesianComponents ∧ measure (componentOperands operands vs) < n) :
    Ensures (getSubResults M .exact boolValued false projVars (componentOperator sub g)
        (ds.map (withOperands g operands)))
      (SubResultsRight boolValued projVars (ds.map (componentOperands operands))) := by
  induction ds with
  | nil => exact Ensures.pure .nil
  | cons vs ds ih =>
    obtain ⟨⟨hvs, hn⟩, hds⟩ := List.forall_mem_cons.mp hds
    rw [List.map_cons, List.map_cons, withOperands, getSubResults]
    refine Ensures.bind (subResult_spec (M := M) hs hc hvs hn) ?_
    rintro result ⟨hnodup, hlists⟩
    rw [Bool.not_false, Bool.true_and]
    have hisEmpty : (UnorderedMap.entries result).isEmpty = true ↔
        (UnorderedMap.entries result).map (fun e => (⟨e.1, e.2⟩ : Entry K)) = [] := by
      rw [List.isEmpty_iff, List.map_eq_nil_iff]
    by_cases hempty : (UnorderedMap.entries result).map (fun e => (⟨e.1, e.2⟩ : Entry K)) = []
    · rw [if_pos (hisEmpty.mpr hempty)]
      exact Ensures.pure ⟨_, List.mem_cons_self, fun h => hlists.ne_nil_iff.mpr h hempty⟩
    · rw [if_neg fun h => hempty (hisEmpty.mp h)]
      refine Ensures.bind (ih hds) fun results hresults => Ensures.pure ?_
      cases results with
      | none =>
        obtain ⟨group, hgroup, hno⟩ := hresults
        exact ⟨group, List.mem_cons_of_mem _ hgroup, hno⟩
      | some outs => exact .cons ⟨hempty, hnodup, hlists⟩ hresults

theorem ne_nil_precalculated (h : List.Forall₂ (Precalculated boolValued projVars) groups outs) :
    ∀ out ∈ outs, out ≠ [] :=
  forall_mem_of_forall₂ h fun _ _ h => h.ne_nil

theorem valuesOk_precalculated (h : List.Forall₂ (Precalculated boolValued projVars) groups outs) :
    ValuesOk boolValued outs :=
  fun hb => forall_mem_of_forall₂ h fun _ _ h => h.lists.value (by simp [hb])

theorem lists_tuples (hg : Grouping operands (group :: groups))
    (h : List.Forall₂ (Precalculated boolValued projVars) groups outs) :
    Lists (!boolValued) (tuples outs) (joined projVars groups).solutions
      (joined projVars groups).reading := by
  refine Part.lists_tuples ?_ ?_ (List.forall₂_map_left_iff.mpr (h.imp fun _ _ h => h.lists))
  · exact List.forall_mem_map.mpr fun group _ => local_groupPart projVars group
  · rw [List.pairwise_map]
    exact (List.pairwise_cons.mp hg.disjoint).2

omit [DecidableEq K] in
/-- Without a solution of one group there is none. -/
theorem solutions_eq_empty (hg : Grouping operands (group :: groups))
    (h : ∃ group ∈ groups, ¬ (solutions group).Nonempty) (projVars : List Label) :
    solutions operands = ∅ := by
  obtain ⟨group', hgroup', hno⟩ := h
  refine Set.not_nonempty_iff_eq_empty.mp fun hne => hno ?_
  rw [hg.solutions_eq projVars, Set.image_nonempty, Set.prod_nonempty_iff] at hne
  exact Part.nonempty_of_join (List.forall_mem_map.mpr fun group _ => local_groupPart projVars group)
    hne.1 _ (List.mem_map_of_mem hgroup')

/-- The value of the only tuple is the number of combined solutions, if no variable is projected. -/
theorem counts_joined (hg : Grouping operands (group :: groups))
    (hd : ∀ group ∈ groups, ∀ l ∈ projVars, l ∉ labelSet group)
    (h : List.Forall₂ (Precalculated false projVars) groups outs) :
    ∃ current, outs.sections = [current] ∧
      Counts true (current.map Weighted.value).prod (joined projVars groups).solutions := by
  have hsingle : ∃ current, outs.sections = [current] ∧
      List.Forall₂ (fun part m => Counts true m part.solutions) (groups.map (groupPart projVars))
        (current.map Weighted.value) := by
    clear hg
    induction h with
    | nil => exact ⟨[], rfl, .nil⟩
    | @cons group out groups outs hout _ ih =>
      obtain ⟨hdone, hd⟩ := List.forall_mem_cons.mp hd
      obtain ⟨current, hsections, hcounts⟩ := ih hd
      have hread (σ : Label → K) : (groupPart projVars group).reading σ =
          List.replicate projVars.length default := fill_eq_self List.length_replicate hdone
      obtain ⟨m, rfl, hm⟩ := hout.lists.eq_singleton hout.nodup hout.ne_nil fun σ _ => hread σ
      refine ⟨⟨List.replicate projVars.length default, m⟩ :: current, ?_, .cons hm hcounts⟩
      rw [List.sections, hsections]
      rfl
  obtain ⟨current, hsections, hcounts⟩ := hsingle
  refine ⟨current, hsections, Part.counts_prod ?_ ?_ hcounts⟩
  · exact List.forall_mem_map.mpr fun group _ => local_groupPart projVars group
  · rw [List.pairwise_map]
    exact (List.pairwise_cons.mp hg.disjoint).2

section Iterate

variable {mapping : List (List Nat)} {poss : List Nat} {iteratedOut : List (Entry K)}
variable {Q : Entry K → Prop}

/-- The entry yielded for an entry of the iterated component and a tuple of the others. -/
def ProductOf (boolValued : Bool) (mapping : List (List Nat)) (poss : List Nat) (Q : Entry K → Prop)
    (p : Weighted (List (List K) × List K)) (entry : Entry K) : Prop :=
  (∃ e, Q e ∧ entry.key = copyKey poss (writeTuple copyKey mapping p.key.1 e.key) p.key.2) ∧
  ((!boolValued) = true → entry.value = p.value)

omit [DecidableEq K] in
theorem iterate_products (hne : ∀ out ∈ outs, out ≠ []) (hl : mapping.length = outs.length)
    (hval : ValuesOk boolValued outs)
    (hwrite : ∀ (e : Entry K) tuple, Q e → Q (e.setKey (writeTuple copyKey mapping tuple e.key)))
    (hbody : ∀ (iterated : Entry K) value e, Q e → Q (productBody .exact poss iterated value e)) (hQ : Q e) :
    Ensures (iterate .exact boolValued poss (.new outs mapping) iteratedOut e) (fun res => Q res.2 ∧
      List.Forall₂ (ProductOf boolValued mapping poss Q) (pairs (tuples outs) iteratedOut) res.1) := by
  induction iteratedOut generalizing e with
  | nil => exact Ensures.pure ⟨hQ, .nil⟩
  | cons iterated iteratedOut ih =>
    rw [iterate]
    refine Ensures.bind (forEach_spec (r := .new outs mapping) hwrite (hbody iterated) hne hl hval hQ) ?_
    rintro ⟨out, e'⟩ ⟨hQ', hout⟩
    refine Ensures.bind (ih hQ') ?_
    rintro ⟨rest, e''⟩ ⟨hQ'', hrest⟩
    refine Ensures.pure ⟨hQ'', ?_⟩
    rw [pairs, List.flatMap_cons]
    refine List.rel_append (List.forall₂_map_left_iff.mpr ?_) hrest
    refine hout.imp ?_
    rintro tuple entry ⟨e, hQe, rfl⟩
    refine ⟨⟨e, hQe, rfl⟩, fun hb => ?_⟩
    have hb : boolValued = false := by simpa using hb
    subst hb
    exact Nat.mul_comm iterated.value tuple.value

omit [DecidableEq K] in
theorem writeTuple_of_nil (h : ∀ poss ∈ mapping, poss = []) (tuple : List (List K)) (key : List K) :
    writeTuple copyKey mapping tuple key = key := by
  induction mapping generalizing tuple with
  | nil => rfl
  | cons poss mapping ih =>
    cases tuple with
    | nil => rfl
    | cons source tuple =>
      rw [h poss List.mem_cons_self]
      exact ih (fun p hp => h p (List.mem_cons_of_mem _ hp)) tuple

/-- The yielded products list the solutions. -/
theorem lists_products (hg : Grouping operands (group :: groups))
    (hmapping : List.Forall₂ (fun group => Places projVars (labelSet group)) groups mapping)
    (hposs : Places projVars (labelSet group) poss) (hl : e.key.length = projVars.length)
    {out : List (Entry K)}
    (htuples : Lists (!boolValued) (tuples outs) (joined projVars groups).solutions
      (joined projVars groups).reading)
    (hiterated : Lists (!boolValued) iteratedOut (solutions group) (groupPart projVars group).reading)
    (hout : List.Forall₂ (ProductOf boolValued mapping poss
      fun e' => Agree (labelSet operands) projVars e'.key e.key) (pairs (tuples outs) iteratedOut) out) :
    Lists (!boolValued) out (solutions operands) (fill (labelSet operands) projVars e.key) := by
  have hpairs := htuples.pairs hiterated
  let f (p : List (List K) × List K) := copyKey poss (writeTuple copyKey mapping p.1 e.key) p.2
  have hrel : List.Forall₂ (fun p e' => e'.key = f p.key ∧ ((!boolValued) = true → e'.value = p.value))
      (pairs (tuples outs) iteratedOut) out := by
    have hkeys (p) (hp : p ∈ pairs (tuples outs) iteratedOut) :
        p.key ∈ (pairs (tuples outs) iteratedOut).map (·.key) := List.mem_map_of_mem hp
    refine ((List.forall₂_and_left _ _).mpr ⟨hkeys, hout⟩).imp ?_
    rintro p e' ⟨hin, ⟨e'', hagree, hkey⟩, hvalue⟩
    obtain ⟨⟨σ, τ⟩, -, hread⟩ := (hpairs.covers p.key).mp hin
    refine ⟨?_, hvalue⟩
    have hread : p.key = ((joined projVars groups).reading σ, (groupPart projVars group).reading τ) :=
      hread.symm
    simp only [f]
    rw [hkey, hread, copyKey_joined hg hmapping hposs (hagree.length.trans hl),
      copyKey_joined hg hmapping hposs hl, hagree.fill]
  rw [hg.solutions_eq projVars]
  refine (Lists.image (injOn_piecewise hg.disjoint_joined)).mpr ?_
  refine (hpairs.of_forall₂ hrel).congr ?_
  rintro ⟨σ, τ⟩ -
  exact copyKey_joined hg hmapping hposs hl σ τ

end Iterate

section Operator

variable [Zero D] [LT D] [DecidableLT D]

/-- One component is iterated, and the others are evaluated before it. -/
theorem prepare_eq (hc : Conjunction t F ns g operands projVars) (hne : g.cartesianComponents ≠ [])
    (c : Choices K V D) (boolValued : Bool) (sub : GraphOperator K V) :
    ∃ vs ds, (vs :: ds).Perm g.cartesianComponents ∧ ∀ (isOptional : Bool) (e : Entry K),
      prepare (M := M) c .exact boolValued projVars sub isOptional g (operands.map (·.hypertrie)) e =
        (getSubResults M .exact boolValued isOptional projVars (componentOperator sub g)
          (ds.map (withOperands g operands))).map fun subResults =>
            (component g vs, (componentOperands operands vs).map (·.hypertrie),
              subResults.map fun subResults => .new (subResults.map
                (Version.query.subResultVec e.key.length))
                (ds.map fun d => (component g d).resultPoss projVars)) := by
  have hextract : (g.cartesianComponents.map (component g)).mapM
      (Component.extractOperands (operands.map (·.hypertrie))) =
        some (g.cartesianComponents.map fun vs =>
          (componentOperands operands vs).map (·.hypertrie)) := by
    rw [List.mapM_map]
    exact Ensures.mapM_eq_some fun vs hvs => extractOperands_component hc hvs
  have hzip : (g.cartesianComponents.map (component g)).zip (g.cartesianComponents.map fun vs =>
      (componentOperands operands vs).map (·.hypertrie)) =
        g.cartesianComponents.map (withOperands g operands) := List.zip_map' ..
  obtain ⟨pos, part, -, hpart, hprepare⟩ := prepare_eq_map (M := M) c projVars hne hextract
  rw [hzip] at hpart
  simp only [hzip] at hprepare
  obtain ⟨vs, hvs, rfl⟩ := Option.map_eq_some_iff.mp ((List.getElem?_map ..).symm.trans hpart)
  obtain ⟨hpos, rfl⟩ := List.getElem?_eq_some_iff.mp hvs
  refine ⟨g.cartesianComponents[pos], g.cartesianComponents.eraseIdx pos,
    List.getElem_cons_eraseIdx_perm hpos, fun isOptional e => ?_⟩
  rw [hprepare, List.eraseIdx_map]
  simp only [List.map_map]
  rfl

/-- What is prepared: the iterated component and the products of the others. -/
def PreparesComponents (boolValued : Bool) (projVars : List Label) (g : DirectedLabelledGraph)
    (operands : List (LabelledOperand K V)) (vs : List Nat) (ds : List (List Nat))
    (res : Component × List (ConstHypertrie K V) × Option (FullCartesianResult K)) : Prop :=
  ∃ subResults, SubResultsRight boolValued projVars (ds.map (componentOperands operands)) subResults ∧
    res = (component g vs, (componentOperands operands vs).map (·.hypertrie), subResults.map fun outs =>
      .new outs (ds.map fun d => (component g d).resultPoss projVars))

theorem prepare_spec (hs : sub.Right t F ns boolValued projVars n)
    (hc : Conjunction t F ns g operands projVars) (hn : measure operands < n + 1)
    (hlen : 1 < g.cartesianComponents.length) (c : Choices K V D) :
    ∃ vs ds, (vs :: ds).Perm g.cartesianComponents ∧ ∀ e : Entry K,
      Ensures (prepare (M := M) c .exact boolValued projVars sub false g (operands.map (·.hypertrie)) e)
        (PreparesComponents boolValued projVars g operands vs ds) := by
  have hne : g.cartesianComponents ≠ [] := List.length_pos_iff.mp (by omega)
  obtain ⟨vs, ds, hperm, hprepare⟩ := prepare_eq (M := M) hc hne c boolValued sub
  refine ⟨vs, ds, hperm, fun e => ?_⟩
  have hds (d) (hd : d ∈ ds) :
      d ∈ g.cartesianComponents ∧ measure (componentOperands operands d) < n := by
    have hd := hperm.mem_iff.mp (List.mem_cons_of_mem _ hd)
    have hlt := hc.measure_component hlen hd
    exact ⟨hd, by omega⟩
  rw [hprepare]
  apply Ensures.map
  refine (getSubResults_right (M := M) hs hc hds).mono fun subResults hsub => ⟨subResults, hsub, ?_⟩
  cases subResults with
  | none => rfl
  | some outs =>
    have hid (out) (hout : out ∈ outs) : Version.query.subResultVec e.key.length out = out :=
      subResultVec_of_ne_nil (ne_nil_precalculated hsub out hout) _ _
    simp only [Option.map_some, List.map_congr_left hid, List.map_id_fun', id_eq]

/-- The loop over the iterated component lists the solutions. -/
theorem iterate_lists (hc : Conjunction t F ns g operands projVars)
    (hperm : (vs :: ds).Perm g.cartesianComponents) (hl : e.key.length = projVars.length) {e' : Entry K}
    (hagree : Agree (labelSet operands) projVars e'.key e.key)
    (houts : List.Forall₂ (Precalculated boolValued projVars) (ds.map (componentOperands operands)) outs)
    {iteratedOut : List (Entry K)}
    (hiterated : Lists (!boolValued) iteratedOut (solutions (componentOperands operands vs))
      (groupPart projVars (componentOperands operands vs)).reading) :
    Ensures (iterate .exact boolValued ((component g vs).resultPoss projVars)
      (.new outs (ds.map fun d => (component g d).resultPoss projVars)) iteratedOut e')
        (Generates boolValued operands projVars e) := by
  have hg : Grouping operands (componentOperands operands vs :: ds.map (componentOperands operands)) :=
    hc.grouping hperm
  have hmem (d) (hd : d ∈ vs :: ds) : d ∈ g.cartesianComponents := hperm.mem_iff.mp hd
  have hplaces (d) (hd : d ∈ vs :: ds) := hc.places_component (hmem d hd)
  have hin (d) (hd : d ∈ vs :: ds) : ∀ pos ∈ (component g d).resultPoss projVars,
      pos ∈ resultPoss (labelSet operands) projVars := fun pos hpos =>
    Agree.resultPoss_subset (Conjunction.labelSet_componentOperands_subset operands d)
      pos ((hplaces d hd pos).mp hpos)
  have hmapping : List.Forall₂ (fun group => Places projVars (labelSet group))
      (ds.map (componentOperands operands)) (ds.map fun d => (component g d).resultPoss projVars) := by
    rw [List.forall₂_map_left_iff, List.forall₂_map_right_iff]
    exact List.forall₂_same.mpr fun d hd => hplaces d (List.mem_cons_of_mem _ hd)
  have hlength : (ds.map fun d => (component g d).resultPoss projVars).length = outs.length :=
    hmapping.length_eq.symm.trans houts.length_eq
  have hwrite (e₁ : Entry K) (tuple : List (List K))
      (hQ : Agree (labelSet operands) projVars e₁.key e.key) : Agree (labelSet operands) projVars
        (e₁.setKey (writeTuple copyKey (ds.map fun d => (component g d).resultPoss projVars)
          tuple e₁.key)).key e.key := by
    refine (agree_writeTuple (List.forall_mem_map.mpr fun d hd => ?_) tuple e₁.key).trans hQ
    exact hin d (List.mem_cons_of_mem _ hd)
  have hbody (iterated : Entry K) (value : Nat) (e₁ : Entry K)
      (hQ : Agree (labelSet operands) projVars e₁.key e.key) : Agree (labelSet operands) projVars
        (productBody .exact ((component g vs).resultPoss projVars) iterated value e₁).key e.key :=
    (agree_copyKey (hin vs List.mem_cons_self) e₁.key iterated.key).trans hQ
  refine (iterate_products (Q := fun e₁ => Agree (labelSet operands) projVars e₁.key e.key)
    (ne_nil_precalculated houts) hlength (valuesOk_precalculated houts) hwrite hbody hagree).mono ?_
  rintro ⟨out, e''⟩ ⟨hagree', hout⟩
  exact ⟨hagree', lists_products hg hmapping (hplaces vs List.mem_cons_self) hl
    (lists_tuples hg houts) hiterated hout⟩

theorem graphGenerator_spec (hs : sub.Right t F ns boolValued projVars n)
    (hc : Conjunction t F ns g operands projVars) (hn : measure operands < n + 1)
    (hlen : 1 < g.cartesianComponents.length) (hl : e.key.length = projVars.length) :
    Ensures (graphGenerator (M := M) c .exact boolValued projVars sub false g (operands.map (·.hypertrie)) e)
      (Generates boolValued operands projVars e) := by
  have hclear := hc.agree_clearEntry e
  obtain ⟨vs, ds, hperm, hprepare⟩ := prepare_spec (M := M) hs hc hn hlen c
  have hvs : vs ∈ g.cartesianComponents := hperm.mem_iff.mp List.mem_cons_self
  have hcomp := hc.component hvs
  have hsmaller := hc.measure_component hlen hvs
  have hgraph : componentGraph g (component g vs) = g.subgraph vs :=
    componentGraph_component fun v hv => (hc.lt_of_component hvs v hv).trans_le hc.problem.length
  have hlarg : (subEntryArg (K := K) projVars).key.length = projVars.length := List.length_replicate
  rw [graphGenerator]
  refine Ensures.bind (hprepare _) ?_
  rintro _ ⟨subResults, hsub, rfl⟩
  cases subResults with
  | none =>
    refine Ensures.pure ⟨hclear, ?_⟩
    rw [solutions_eq_empty (hc.grouping hperm) hsub projVars]
    exact .nil _
  | some outs =>
    have hiterate (iteratedOut : List (Entry K)) (hlists : Lists (!boolValued) iteratedOut
        (solutions (componentOperands operands vs))
        (groupPart projVars (componentOperands operands vs)).reading) :=
      iterate_lists hc hperm hl hclear hsub hlists
    by_cases hdone : (component g vs).allResultDone projVars = true
    · have hread (σ : Label → K) : (groupPart projVars (componentOperands operands vs)).reading σ =
          (subEntryArg projVars).key := fill_eq_self hlarg (hcomp.done_iff.mp hdone)
      simp only [Option.map_some, if_pos hdone, single, componentOperator, hgraph]
      refine Ensures.bind (hs.singleResult _ _ _ hcomp (by omega) hlarg hdone) ?_
      rintro iterated ⟨hkey, hcount⟩
      have hlists := hcount.lists fun σ _ => (hread σ).trans hkey.symm
      by_cases hv : iterated.value ≠ 0
      · rw [if_pos hv] at hlists ⊢
        rw [← iterate_singleton .exact]
        exact hiterate _ hlists
      · rw [if_neg hv] at hlists ⊢
        exact hiterate _ hlists
    · have hnot : allResultDone projVars (g.subgraph vs) = false := (Bool.not_eq_true _).mp hdone
      simp only [Option.map_some, if_neg hdone, streamed, componentOperator, hgraph, Bool.false_and,
        Bool.false_eq_true, if_false]
      refine Ensures.bind (generated_spec hs hcomp (by omega) hnot) fun iteratedOut hlists => ?_
      exact Ensures.bind (hiterate iteratedOut hlists) fun res hres => Ensures.pure hres

theorem graphSingleResult_spec (hs : sub.Right t F ns boolValued projVars n)
    (hc : Conjunction t F ns g operands projVars) (hn : measure operands < n + 1)
    (hlen : 1 < g.cartesianComponents.length) (hd : allResultDone projVars g = true) :
    Ensures (graphSingleResult (M := M) c .exact boolValued projVars sub false g (operands.map (·.hypertrie)) e)
      (CountsTo boolValued operands e) := by
  obtain ⟨vs, ds, hperm, hprepare⟩ := prepare_spec (M := M) hs hc hn hlen c
  have hvs : vs ∈ g.cartesianComponents := hperm.mem_iff.mp List.mem_cons_self
  have hcomp := hc.component hvs
  have hsmaller := hc.measure_component hlen hvs
  have hgraph : componentGraph g (component g vs) = g.subgraph vs :=
    componentGraph_component fun v hv => (hc.lt_of_component hvs v hv).trans_le hc.problem.length
  have hg : Grouping operands (componentOperands operands vs :: ds.map (componentOperands operands)) :=
    hc.grouping hperm
  have hdone (d : List Nat) : ∀ l ∈ projVars, l ∉ labelSet (componentOperands operands d) :=
    fun l hl hm => hc.done_iff.mp hd l hl (Conjunction.labelSet_componentOperands_subset operands d hm)
  rw [graphSingleResult, hc.clearEntry_of_done hd]
  refine Ensures.bind (hprepare e) ?_
  rintro _ ⟨subResults, hsub, rfl⟩
  cases subResults with
  | none =>
    refine Ensures.pure ⟨rfl, ?_⟩
    rw [solutions_eq_empty hg hsub projVars]
    exact .zero
  | some outs =>
    have hdisj : Disjoint (joined projVars (ds.map (componentOperands operands))).names
        (labelSet (componentOperands operands vs)) := hg.disjoint_joined
    have hinj := injOn_piecewise (C := (joined projVars (ds.map (componentOperands operands))).constraint)
      (D := constraints (componentOperands operands vs)) hdisj
    have hne := Odometer.sections_ne_nil (ne_nil_precalculated hsub)
    simp only [Option.map_some, singleProduct, componentOperator, hgraph]
    refine Ensures.bind (hs.singleResult _ _ _ hcomp (by omega) List.length_replicate
      (hcomp.done_iff.mpr (hdone vs))) ?_
    rintro iterated ⟨-, hcount⟩
    cases boolValued with
    | true =>
      have hjoined : (joined projVars (ds.map (componentOperands operands))).solutions.Nonempty := by
        refine (lists_tuples hg hsub).ne_nil_iff.mp ?_
        rw [tuples_eq_map_sections]
        simpa using hne
      refine Ensures.pure ⟨rfl, ?_, by simp⟩
      rw [hg.solutions_eq projVars, Set.image_nonempty, Set.prod_nonempty_iff, and_iff_right hjoined]
      exact hcount.ne_zero_iff
    | false =>
      obtain ⟨current, hsections, hprod⟩ := counts_joined hg
        (List.forall_mem_map.mpr fun d _ => hdone d) hsub
      have hmapping : ∀ poss ∈ ds.map (fun d => (component g d).resultPoss projVars), poss = [] :=
        List.forall_mem_map.mpr fun d hm => Component.resultPoss_of_done
          ((hc.component (hperm.mem_iff.mp (List.mem_cons_of_mem _ hm))).done_iff.mpr (hdone d))
      have hlength : (ds.map fun d => (component g d).resultPoss projVars).length = outs.length := by
        have hlength := hsub.length_eq
        rwa [List.length_map] at hlength ⊢
      have hkey (tuple : List (List K)) : writeTuple copyKey
          (ds.map fun d => (component g d).resultPoss projVars) tuple e.key = e.key :=
        writeTuple_of_nil hmapping tuple e.key
      rw [if_neg Bool.false_ne_true, restart]
      simp only [FullCartesianResult.new, restartFrom_spec (ne_nil_precalculated hsub) hlength hsections,
        hkey, Option.bind_eq_bind, Option.bind_some]
      refine Ensures.pure ⟨rfl, ?_⟩
      rw [hg.solutions_eq projVars]
      refine (Counts.image hinj).mpr ?_
      show Counts true (iterated.value * (current.map Weighted.value).foldl (· * ·) 1) _
      rw [← List.prod_eq_foldl, Nat.mul_comm]
      exact hprod.prod hcount

end Operator

end Components

end CartesianOperator

end Query

end Hypertrie
