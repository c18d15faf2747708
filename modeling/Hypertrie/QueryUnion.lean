import Hypertrie.QuerySchedule

/-! Unions of conjunctions. The solutions of a union are those of its components, one
component after the other; the entry is cleared between them. -/

namespace Hypertrie

open UnorderedMap Weighted LabelledOperand Assignment

variable {M : Type → Type → Type} [UnorderedMap M] {K V D : Type}
variable [Inhabited K]

namespace Query

section Keys

variable {projVars varIdsSet : List Label} {U : Finset Label} {e : Entry K} {σ : Label → K} {pos : Nat}

/-- The key of an entry without bound key parts. -/
def unbound (projVars : List Label) : List K := List.replicate projVars.length default

theorem fill_unbound (h : Supported U σ) :
    fill U projVars (unbound projVars) σ = projVars.map σ := by
  apply List.ext_getElem?
  intro pos
  rw [getElem?_fill, List.getElem?_map, unbound, List.getElem?_replicate]
  cases hpos : projVars[pos]? with
  | none => rfl
  | some l =>
    rw [if_pos (List.getElem?_eq_some_iff.mp hpos).1]
    by_cases hl : l ∈ U
    · simp [hl]
    · simp [hl, h l hl]

theorem mem_usedEntryPoss_iff (hn : projVars.Nodup) : pos ∈ usedEntryPoss projVars varIdsSet ↔
    ∃ l ∈ varIdsSet, projVars[pos]? = some l := by
  rw [mem_usedEntryPoss]
  refine exists_congr fun l => and_congr_right fun _ => ⟨projectedVarPosition_spec, fun hpos => ?_⟩
  obtain ⟨hlt, hget⟩ := List.getElem?_eq_some_iff.mp hpos
  rw [projectedVarPosition_eq hn, if_pos (List.mem_of_getElem? hpos), ← hget, hn.idxOf_getElem pos hlt]

/-- Clearing binds the variables to no key part. -/
theorem key_clearEntry (hn : projVars.Nodup) (hl : e.key.length = projVars.length)
    (hU : ∀ l, l ∈ varIdsSet ↔ l ∈ U) :
    (clearEntry projVars varIdsSet e).key = fill U projVars e.key fun _ => default := by
  apply List.ext_getElem?
  intro pos
  rw [getElem?_fill]
  refine (getElem?_clear _ e.key pos).trans ?_
  cases hpos : projVars[pos]? with
  | none =>
    have hnone : e.key[pos]? = none := by
      rw [List.getElem?_eq_none_iff, hl]
      exact List.getElem?_eq_none_iff.mp hpos
    simp [hnone]
  | some l =>
    have hmem : pos ∈ usedEntryPoss projVars varIdsSet ↔ l ∈ U := by
      rw [mem_usedEntryPoss_iff hn, ← hU]
      simp [hpos]
    by_cases hl : l ∈ U
    · simp [hmem.mpr hl, hl]
    · simp [mt hmem.mp hl, hl]

/-- After an operator has run, clearing its variables leaves an entry unbound that was so. -/
theorem key_clearEntry_unbound (hn : projVars.Nodup) (hU : ∀ l, l ∈ varIdsSet ↔ l ∈ U)
    (h : Agree U projVars e.key (unbound projVars)) :
    (clearEntry projVars varIdsSet e).key = unbound projVars := by
  have hl : e.key.length = projVars.length := h.length.trans List.length_replicate
  have hdefault : Supported U fun _ => (default : K) := fun _ _ => rfl
  rw [key_clearEntry hn hl hU, h.fill, fill_unbound hdefault, List.map_const']
  rfl

end Keys

section Solutions

variable {operands : List (LabelledOperand K V)} {vs : List Nat} {cs : List (List Nat)}
variable {g : DirectedLabelledGraph} {projVars : List Label}

/-- The solutions of some components, each with the component it is from. -/
def unionSolutions (operands : List (LabelledOperand K V)) (cs : List (List Nat)) :
    Set (List Nat × (Label → K)) :=
  {p | p.1 ∈ cs ∧ p.2 ∈ solutions (componentOperands operands p.1)}

theorem unionSolutions_nil (operands : List (LabelledOperand K V)) : unionSolutions operands [] = ∅ := by
  simp [unionSolutions]

theorem unionSolutions_cons (operands : List (LabelledOperand K V)) (vs : List Nat) (cs : List (List Nat)) :
    unionSolutions operands (vs :: cs) =
      Prod.mk vs '' solutions (componentOperands operands vs) ∪ unionSolutions operands cs := by
  ext ⟨vs', σ⟩
  simp only [unionSolutions, Set.mem_union, Set.mem_image, Set.mem_ofPred_eq, List.mem_cons,
    Prod.mk.injEq]
  constructor
  · rintro ⟨rfl | hin, hσ⟩
    · exact .inl ⟨σ, hσ, rfl, rfl⟩
    · exact .inr ⟨hin, hσ⟩
  · rintro (⟨σ', hσ, rfl, rfl⟩ | ⟨hin, hσ⟩)
    · exact ⟨.inl rfl, hσ⟩
    · exact ⟨.inr hin, hσ⟩

theorem disjoint_unionSolutions (h : vs ∉ cs) :
    Disjoint (Prod.mk vs '' solutions (componentOperands operands vs)) (unionSolutions operands cs) := by
  refine Set.disjoint_left.mpr ?_
  rintro _ ⟨σ, -, rfl⟩ ⟨hin, -⟩
  exact h hin

omit [Inhabited K] in
theorem injOn_mk (vs : List Nat) (A : Set (Label → K)) : Set.InjOn (Prod.mk vs) A :=
  (Prod.mk_right_injective vs).injOn

/-- How often the key is a solution of a union. -/
noncomputable def multiplicity (g : DirectedLabelledGraph) (operands : List (LabelledOperand K V))
    (projVars : List Label) (key : List K) : ℕ∞ :=
  (g.unionComponents.map fun vs =>
    {σ ∈ solutions (componentOperands operands vs) | projVars.map σ = key}.encard).sum

theorem encard_unionSolutions (hn : cs.Nodup) (projVars : List Label) (key : List K) :
    {p ∈ unionSolutions operands cs | projVars.map p.2 = key}.encard = (cs.map fun vs =>
      {σ ∈ solutions (componentOperands operands vs) | projVars.map σ = key}.encard).sum := by
  induction cs with
  | nil => simp [unionSolutions_nil]
  | cons vs cs ih =>
    obtain ⟨hvs, hn⟩ := List.nodup_cons.mp hn
    have hsplit : {p ∈ unionSolutions operands (vs :: cs) | projVars.map p.2 = key} =
        Prod.mk vs '' {σ ∈ solutions (componentOperands operands vs) | projVars.map σ = key} ∪
          {p ∈ unionSolutions operands cs | projVars.map p.2 = key} := by
      rw [unionSolutions_cons]
      ext p
      constructor
      · rintro ⟨⟨σ, hσ, rfl⟩ | hin, hkey⟩
        · exact .inl ⟨σ, ⟨hσ, hkey⟩, rfl⟩
        · exact .inr ⟨hin, hkey⟩
      · rintro (⟨σ, ⟨hσ, hkey⟩, rfl⟩ | ⟨hin, hkey⟩)
        · exact ⟨.inl ⟨σ, hσ, rfl⟩, hkey⟩
        · exact ⟨.inr hin, hkey⟩
    have hdisjAll : Disjoint (Prod.mk vs '' solutions (componentOperands operands vs))
        (unionSolutions operands cs) := disjoint_unionSolutions hvs
    have hdisj := hdisjAll.mono
      (Set.image_mono (Set.sep_subset _ fun σ => projVars.map σ = key))
      (Set.sep_subset _ fun p => projVars.map p.2 = key)
    rw [hsplit, Set.encard_union_eq hdisj, (injOn_mk vs _).encard_image, ih hn, List.map_cons,
      List.sum_cons]

end Solutions

section Operators

variable {t : HypertrieTrait K V} {F : Nat → Finset (SingleEntry K V) → Prop}
variable {ns : NodeStorage M K V} {c : Choices K V D} {boolValued : Bool} {n : Nat}
variable {sub : GraphOperator K V} {operands : List (LabelledOperand K V)} {projVars : List Label}
variable {g : DirectedLabelledGraph} {e : Entry K} {vs : List Nat} {cs : List (List Nat)}

namespace UnionQuery

theorem lt_of_component (hu : UnionQuery t F ns g operands projVars) (hvs : vs ∈ g.unionComponents) :
    ∀ v ∈ vs, v < operands.length :=
  fun _ hv => (lt_of_mem_unionComponents hvs hv).trans_eq hu.size_eq

/-- The components of a union are conjunctions. -/
theorem component (hu : UnionQuery t F ns g operands projVars) (hvs : vs ∈ g.unionComponents) :
    Conjunction t F ns (g.subgraph vs) (componentOperands operands vs) projVars := by
  have hlt := hu.lt_of_component hvs
  have hle : vs.length ≤ operands.length := by
    have hle := (Components.sublist_of_mem hvs).length_le
    rwa [DirectedLabelledGraph.vertices, List.length_range, hu.size_eq] at hle
  exact .of_block (Problem.componentOperands hu.problem hle hlt) (hu.blocks.block_unionComponent hvs)
    (varIds_componentOperands hu.varIds hlt)

theorem measure_component (hu : UnionQuery t F ns g operands projVars)
    (hlen : 1 < g.unionComponents.length) (hvs : vs ∈ g.unionComponents) :
    measure (componentOperands operands vs) < measure operands := by
  have hcard := Finset.card_le_card (Conjunction.labelSet_componentOperands_subset operands vs)
  have hlt := Components.length_lt (DirectedLabelledGraph.nodup_vertices g) hlen hvs
  rw [DirectedLabelledGraph.vertices, List.length_range, hu.size_eq] at hlt
  rw [measure, measure, length_componentOperands (hu.lt_of_component hvs)]
  omega

theorem done_component (hu : UnionQuery t F ns g operands projVars)
    (hd : allResultDone projVars g = true) (hvs : vs ∈ g.unionComponents) :
    allResultDone projVars (g.subgraph vs) = true :=
  (hu.component hvs).done_iff.mpr fun l hl hm =>
    hu.done_iff.mp hd l hl (Conjunction.labelSet_componentOperands_subset operands vs hm)

/-- With one component at most, the union is a conjunction. -/
theorem conjunction (hu : UnionQuery t F ns g operands projVars)
    (hlen : g.unionComponents.length ≤ 1) : Conjunction t F ns g operands projVars := by
  refine ⟨hu, fun u hu' v hv => ?_⟩
  have hcs := Components.eq_singleton (DirectedLabelledGraph.nodup_vertices g)
    (List.ne_nil_of_mem (DirectedLabelledGraph.mem_vertices.mpr hu')) hlen
  have hmem : g.vertices ∈ Components.connectedComponents g.vertices g.endpoints :=
    hcs ▸ List.mem_singleton_self _
  exact ((Components.mem_iff_connected hmem (DirectedLabelledGraph.mem_vertices.mpr hu')).mp
    (DirectedLabelledGraph.mem_vertices.mpr hv)).2

/-- The only component of a conjunction has all operands. -/
theorem unionSolutions_eq (hu : UnionQuery t F ns g operands projVars)
    (hlen : g.unionComponents.length ≤ 1) (hne : operands ≠ []) :
    unionSolutions operands g.unionComponents = Prod.mk g.vertices '' solutions operands := by
  have hvertices : g.vertices = List.range operands.length := by
    rw [DirectedLabelledGraph.vertices, hu.size_eq]
  have hcs : g.unionComponents = [g.vertices] := by
    refine Components.eq_singleton (DirectedLabelledGraph.nodup_vertices g) ?_ hlen
    rw [hvertices]
    exact List.ne_nil_of_length_pos (by simpa using List.length_pos_iff.mpr hne)
  rw [hcs, unionSolutions_cons, unionSolutions_nil, Set.union_empty, hvertices,
    componentOperands_range]

end UnionQuery

namespace UnionOperator

theorem initUnion_eq (hu : UnionQuery t F ns g operands projVars) :
    initUnion g (operands.map (·.hypertrie)) = some (g.unionComponents.map fun vs =>
      (g.subgraph vs, (componentOperands operands vs).map (·.hypertrie))) :=
  Ensures.mapM_eq_some fun vs hvs => by
    rw [operandsAt_eq hu.problem.length (hu.lt_of_component hvs)]
    rfl

variable [DecidableEq K]

/-- The loop lists the solutions of one component after the other. -/
theorem generatorLoop_spec (hs : sub.Right t F ns boolValued projVars n)
    (hu : UnionQuery t F ns g operands projVars) (hnodup : cs.Nodup)
    (hcs : ∀ vs ∈ cs, vs ∈ g.unionComponents ∧ measure (componentOperands operands vs) < n)
    (hkey : e.key = unbound projVars) :
    Ensures (generatorLoop projVars sub (cs.map fun vs =>
        (g.subgraph vs, (componentOperands operands vs).map (·.hypertrie))) e)
      (fun res => Lists (!boolValued) res.1 (unionSolutions operands cs) fun p => projVars.map p.2) := by
  induction cs generalizing e with
  | nil =>
    rw [unionSolutions_nil]
    exact Ensures.pure (.nil _)
  | cons vs cs ih =>
    obtain ⟨hvs, hnodup⟩ := List.nodup_cons.mp hnodup
    obtain ⟨⟨hin, hn⟩, hcs⟩ := List.forall_mem_cons.mp hcs
    have hcomp := hu.component hin
    have hl : e.key.length = projVars.length := by rw [hkey, unbound, List.length_replicate]
    rw [List.map_cons, generatorLoop]
    refine Ensures.bind (hs.entries hcomp hn hl) ?_
    rintro ⟨out, e'⟩ ⟨hagree, hout⟩
    rw [hkey] at hagree hout
    have hkey' := key_clearEntry_unbound hcomp.problem.nodup
      (fun l => hcomp.mem_operandsVarIdsSet) hagree
    refine Ensures.bind (ih hnodup hcs hkey') ?_
    rintro ⟨rest, e''⟩ hrest
    refine Ensures.pure ?_
    rw [unionSolutions_cons]
    refine Lists.append ?_ hrest (disjoint_unionSolutions hvs)
    refine (Lists.image (injOn_mk vs _)).mpr (hout.congr fun σ hσ => ?_)
    exact fill_unbound hσ.2

/-- The loop adds the numbers of solutions of the components. -/
theorem singleLoop_spec (hs : sub.Right t F ns boolValued projVars n)
    (hu : UnionQuery t F ns g operands projVars) (hd : allResultDone projVars g = true)
    (hnodup : cs.Nodup)
    (hcs : ∀ vs ∈ cs, vs ∈ g.unionComponents ∧ measure (componentOperands operands vs) < n)
    (hl : e.key.length = projVars.length) {value : Nat} {A : Set (List Nat × (Label → K))}
    (hA : Counts (!boolValued) value A) (hbool : boolValued = true → A = ∅)
    (hdisj : Disjoint A (unionSolutions operands cs)) :
    Ensures (singleLoop .exact boolValued sub (cs.map fun vs =>
        (g.subgraph vs, (componentOperands operands vs).map (·.hypertrie))) value e)
      (fun e' => e'.key = e.key ∧ Counts (!boolValued) e'.value (A ∪ unionSolutions operands cs)) := by
  induction cs generalizing e value A with
  | nil =>
    rw [unionSolutions_nil, Set.union_empty]
    exact Ensures.pure ⟨rfl, hA⟩
  | cons vs cs ih =>
    obtain ⟨hvs, hnodup⟩ := List.nodup_cons.mp hnodup
    obtain ⟨⟨hin, hn⟩, hcs⟩ := List.forall_mem_cons.mp hcs
    rw [unionSolutions_cons] at hdisj ⊢
    have hdisjHead := hdisj.mono_right Set.subset_union_left
    have hdisjTail := hdisj.mono_right Set.subset_union_right
    have hdisjRest : Disjoint (Prod.mk vs '' solutions (componentOperands operands vs))
      (unionSolutions operands cs) := disjoint_unionSolutions hvs
    rw [List.map_cons, singleLoop]
    refine Ensures.bind (hs.singleResult _ _ e (hu.component hin) hn hl (hu.done_component hd hin)) ?_
    rintro e' ⟨hkey, hcount⟩
    have himage := (Counts.image (injOn_mk vs _)).mpr hcount
    by_cases hv : e'.value ≠ 0
    · rw [if_pos hv]
      cases boolValued with
      | true =>
        refine Ensures.pure ⟨hkey, iff_of_true hv ?_, fun h => by cases h⟩
        exact (himage.ne_zero_iff.mp hv).mono fun p hp => .inr (.inl hp)
      | false =>
        refine (ih hnodup hcs (hkey ▸ hl) (hA.union himage hdisjHead) (fun h => by cases h)
          (hdisjTail.sup_left hdisjRest)).mono ?_
        rintro e'' ⟨hkey', hcount'⟩
        refine ⟨hkey'.trans hkey, ?_⟩
        rwa [← Set.union_assoc]
    · have hempty : Prod.mk vs '' solutions (componentOperands operands vs) = ∅ :=
        Set.not_nonempty_iff_eq_empty.mp fun h => hv (himage.ne_zero_iff.mpr h)
      rw [if_neg hv, hempty, Set.empty_union]
      refine (ih hnodup hcs (hkey ▸ hl) hA hbool hdisjTail).mono ?_
      rintro e'' ⟨hkey', hcount'⟩
      exact ⟨hkey'.trans hkey, hcount'⟩

end UnionOperator

section Evaluation

variable [Zero D] [LT D] [DecidableLT D]

theorem nextOp_union (projVars : List Label) (hlen : 1 < g.unionComponents.length) :
    nextOp projVars g = .union := by
  have hsize : 1 < g.size := by
    obtain ⟨vs, hvs⟩ := List.exists_mem_of_length_pos (show 0 < g.unionComponents.length by omega)
    have hlt := Components.length_lt (DirectedLabelledGraph.nodup_vertices g) hlen hvs
    have hpos := List.length_pos_iff.mpr (Components.ne_nil_of_mem hvs)
    rw [DirectedLabelledGraph.vertices, List.length_range] at hlt
    omega
  rw [nextOp, if_neg (by omega), if_neg (by omega), if_pos hlen]

theorem UnionQuery.fuel_eq (hu : UnionQuery t F ns g operands projVars) :
    g.operandsVarIdsSet.length + g.size = measure operands := by
  rw [hu.length_operandsVarIdsSet, hu.size_eq, measure]

variable [DecidableEq K] [DecidableEq V]

/-- The operator of a union lists its solutions. -/
theorem UnionQuery.generator_spec (hr : Readable t F ns) (hu : UnionQuery t F ns g operands projVars)
    (hne : operands ≠ []) (c : Choices K V D) (boolValued : Bool)
    (hd : allResultDone projVars g = false) (hkey : e.key = unbound projVars) :
    Ensures ((operatorOf (M := M) t ns c .exact boolValued projVars g).generator g
      (operands.map (·.hypertrie)) e) (fun res => Lists (!boolValued) res.1
        (unionSolutions operands g.unionComponents) fun p => projVars.map p.2) := by
  have hl : e.key.length = projVars.length := by rw [hkey, unbound, List.length_replicate]
  have hright := getSubOperator_right (M := M) hr c boolValued projVars
  rw [operatorOf, hu.fuel_eq]
  by_cases hlen : 1 < g.unionComponents.length
  · simp only [getSubOperator, nextOp_union projVars hlen, UnionOperator.generator,
      UnionOperator.initUnion_eq hu, Option.bind_eq_bind, Option.bind_some]
    refine UnionOperator.generatorLoop_spec (hright (measure operands)) hu
      (Components.nodup_connectedComponents (DirectedLabelledGraph.nodup_vertices g))
      (fun vs hvs => ⟨hvs, hu.measure_component hlen hvs⟩) ?_
    refine key_clearEntry_unbound hu.problem.nodup (fun l => hu.mem_operandsVarIdsSet) ?_
    rw [hkey]
    exact .refl _ _ _
  · have hc := hu.conjunction (by omega)
    refine ((hright (measure operands + 1)).generator g operands e hc (Nat.lt_succ_self _) hl hd).mono ?_
    rintro res ⟨-, hout⟩
    rw [hu.unionSolutions_eq (by omega) hne]
    refine (Lists.image (injOn_mk _ _)).mpr (hout.congr fun σ hσ => ?_)
    rw [hkey]
    exact fill_unbound hσ.2

/-- The single result of a union counts its solutions. -/
theorem UnionQuery.singleResult_spec (hr : Readable t F ns) (hu : UnionQuery t F ns g operands projVars)
    (hne : operands ≠ []) (c : Choices K V D) (boolValued : Bool)
    (hd : allResultDone projVars g = true) (hl : e.key.length = projVars.length) :
    Ensures ((operatorOf (M := M) t ns c .exact boolValued projVars g).singleResult g
      (operands.map (·.hypertrie)) e) (fun e' => e'.key = e.key ∧
        Counts (!boolValued) e'.value (unionSolutions operands g.unionComponents)) := by
  have hright := getSubOperator_right (M := M) hr c boolValued projVars
  rw [operatorOf, hu.fuel_eq]
  by_cases hlen : 1 < g.unionComponents.length
  · simp only [getSubOperator, nextOp_union projVars hlen, UnionOperator.singleResult,
      UnionOperator.initUnion_eq hu, hu.clearEntry_of_done hd, Option.bind_eq_bind, Option.bind_some]
    refine (UnionOperator.singleLoop_spec (hright (measure operands)) hu hd
      (Components.nodup_connectedComponents (DirectedLabelledGraph.nodup_vertices g))
      (fun vs hvs => ⟨hvs, hu.measure_component hlen hvs⟩) hl .zero (fun _ => rfl)
      (Set.empty_disjoint _)).mono ?_
    rintro e' ⟨hkey, hcount⟩
    rw [Set.empty_union] at hcount
    exact ⟨hkey, hcount⟩
  · have hc := hu.conjunction (by omega)
    refine ((hright (measure operands + 1)).singleResult g operands e hc (Nat.lt_succ_self _) hl hd).mono ?_
    rintro e' ⟨hkey, hcount⟩
    rw [hu.unionSolutions_eq (by omega) hne]
    exact ⟨hkey, (Counts.image (injOn_mk _ _)).mpr hcount⟩

end Evaluation

end Operators

end Query

end Hypertrie
