import Hypertrie.QueryUnion

/-! The operands that evaluation prunes: an empty one takes its conjunction with it, and
the other alternatives of a union are left as they are. -/

namespace Hypertrie

open UnorderedMap Weighted LabelledOperand Assignment

variable {M : Type → Type → Type} [UnorderedMap M] {K V D : Type}

namespace Query

open DirectedLabelledGraph

section Graphs

variable {g : DirectedLabelledGraph} {kept vs : List Nat} {u v : Nat} {emptyOperands : List Vertex}

theorem size_toSubgraph (g : DirectedLabelledGraph) : g.toSubgraph.numVertices = g.size :=
  List.length_range

/-- The vertices that are left are the original positions of those of `prune_graph`, -/
theorem pruneGraph_positions (h : g.toSubgraph.Wf) (hash : List Vertex → Nat) (fuel : Nat) :
    ((OperandDependencyGraph.ofSubgraph g.toSubgraph).pruneGraph hash emptyOperands).bind
      (fun res => res.1.operandsOriginalPositions fuel) =
        (g.prunedVertices emptyOperands).map (·.map (BitVec.ofNat 8)) := by
  show ((OperandDependencyGraph.pruned g.toSubgraph emptyOperands).bind _).bind _ = _
  rw [prunedVertices, Option.map_map]
  cases OperandDependencyGraph.pruned g.toSubgraph emptyOperands with
  | none => rfl
  | some pruned =>
    refine (OperandDependencyGraph.positions_filter h (fun v => BitVec.ofNat 8 v ∉ pruned) fuel).trans ?_
    rw [size_toSubgraph]
    rfl

/-- and of `remove_vertices`. -/
theorem removeVertices_positions (h : g.toSubgraph.Wf) (vertices : List Vertex) (fuel : Nat) :
    ((OperandDependencyGraph.ofSubgraph g.toSubgraph).removeVertices vertices).operandsOriginalPositions
      fuel = some ((g.withoutVertices vertices).map (BitVec.ofNat 8)) := by
  refine (OperandDependencyGraph.positions_filter h (fun v => v ∉ vertices.map BitVec.toNat) fuel).trans ?_
  rw [size_toSubgraph]
  rfl

theorem depends_toSubgraph (h : Blocks g) : g.toSubgraph.Depends u v ↔
    ∃ e ∈ g.edges, e.source = u ∧ e.target = v ∧ e.isOpt = false := by
  have hlocal {x : Nat} (hx : x < g.size) : g.toSubgraph.globalToLocal x = x :=
    Subgraph.globalToLocal_root hx
  constructor
  · rintro ⟨_, hlocal', rfl, rfl, hopt⟩
    obtain ⟨_, hroot, rfl⟩ := List.mem_map.mp hlocal'
    obtain ⟨e, hin, rfl⟩ := List.mem_map.mp (List.mem_filter.mp hroot).1
    obtain ⟨hs, ht⟩ := h.inRange e hin
    exact ⟨e, hin, (hlocal hs).symm, (hlocal ht).symm, hopt⟩
  · rintro ⟨e, he, rfl, rfl, hopt⟩
    obtain ⟨hs, ht⟩ := h.inRange e he
    refine ⟨_, List.mem_map_of_mem (List.mem_filter.mpr ⟨List.mem_map_of_mem he, ?_⟩), ?_⟩
    · exact decide_eq_true ⟨List.mem_range.mpr hs, List.mem_range.mpr ht⟩
    · exact ⟨hlocal hs, hlocal ht, hopt⟩

/-- In blocks, an operand depends on those it is connected with. -/
theorem Blocks.reaches_iff (h : Blocks g) (hu : u < g.size) (hv : v < g.size) :
    Relation.ReflTransGen g.toSubgraph.Depends u v ↔ Components.Connected g.endpoints u v := by
  constructor
  · intro hreach
    induction hreach with
    | refl => exact .refl
    | @tail u' v' hreach hstep ih =>
      obtain ⟨e, he, rfl, rfl, -⟩ := (depends_toSubgraph h).mp hstep
      refine (ih (h.inRange e he).1).trans (Components.connected_of_edge ?_)
      exact edge_endpoints.mpr (hasEdge_iff.mpr ⟨e, he, rfl, rfl⟩)
  · intro hconnected
    by_cases huv : u = v
    · rw [huv]
    · obtain ⟨e, he, hs, ht⟩ := hasEdge_iff.mp (h.complete u hu v hv huv hconnected)
      exact .single ((depends_toSubgraph h).mpr ⟨e, he, hs, ht, h.required e he⟩)

theorem Blocks.prunedVertices_spec (h : Blocks g) (hsize : g.size ≤ posTypeCount)
    (hempty : ∀ a ∈ emptyOperands, a.toNat < g.size) :
    Ensures (g.prunedVertices emptyOperands) (fun kept => kept.Sublist g.vertices ∧
      ∀ v, v ∈ kept ↔ v < g.size ∧
        ∀ a ∈ emptyOperands, ¬ Components.Connected g.endpoints a.toNat v) := by
  have hsize' : g.toSubgraph.numVertices ≤ posTypeCount := (size_toSubgraph g).trans_le hsize
  obtain ⟨pruned, hpruned, hmem⟩ := @OperandDependencyGraph.pruned_spec g.toSubgraph emptyOperands fun a ha =>
    (hempty a ha).trans_eq (size_toSubgraph g).symm
  rw [prunedVertices, hpruned]
  refine Ensures.pure ⟨List.filter_sublist, fun v => ?_⟩
  rw [List.mem_filter, DirectedLabelledGraph.mem_vertices, decide_eq_true_eq]
  refine and_congr_right fun hv => ?_
  rw [OperandDependencyGraph.mem_pruned_iff hsize' hmem (hv.trans_eq (size_toSubgraph g).symm)]
  simp only [not_exists, not_and]
  exact forall_congr' fun a => forall_congr' fun ha => not_congr (h.reaches_iff (hempty a ha) hv)

/-- The vertices that are left have all that they are connected with. -/
structure KeepsComponents (g : DirectedLabelledGraph) (kept : List Nat) : Prop where
  sublist : kept.Sublist g.vertices
  closed : ∀ u ∈ kept, ∀ v < g.size, Components.Connected g.endpoints u v → v ∈ kept

/-- The vertices of a sub-graph in the numbers of the graph. -/
def inGraph (kept vs : List Nat) : List Nat := vs.map (kept.getD · 0)

namespace KeepsComponents

theorem nodup (hk : KeepsComponents g kept) : kept.Nodup :=
  (DirectedLabelledGraph.nodup_vertices g).sublist hk.sublist

theorem lt (hk : KeepsComponents g kept) : ∀ v ∈ kept, v < g.size :=
  fun _ hv => DirectedLabelledGraph.mem_vertices.mp (hk.sublist.subset hv)

theorem map_getD_range (kept : List Nat) :
    (List.range kept.length).map (kept.getD · 0) = kept := by
  apply List.ext_getElem
  · rw [List.length_map, List.length_range]
  · intro i hi hi'
    rw [List.getElem_map, List.getElem_range, List.getD_eq_getElem _ _ hi']

/-- A component of the sub-graph is one of the graph. -/
theorem inGraph_mem (hk : KeepsComponents g kept) (h : Blocks g)
    (hvs : vs ∈ (g.subgraph kept).unionComponents) : inGraph kept vs ∈ g.unionComponents := by
  have hlt (i) (hi : i ∈ vs) : i < kept.length :=
    (lt_of_mem_unionComponents hvs hi).trans_eq (size_subgraph g kept)
  have hsub : (inGraph kept vs).Sublist g.vertices := by
    have hrange : vs.Sublist (List.range kept.length) := by
      have hsub := Components.sublist_of_mem hvs
      rwa [DirectedLabelledGraph.vertices, size_subgraph] at hsub
    have hmap := hrange.map (kept.getD · 0)
    rw [map_getD_range] at hmap
    exact hmap.trans hk.sublist
  obtain ⟨i, hi⟩ := List.exists_mem_of_ne_nil _ (Components.ne_nil_of_mem hvs)
  refine Components.mem_of_connected (DirectedLabelledGraph.nodup_vertices g) hsub
    (List.mem_map_of_mem hi) fun b => ?_
  rw [DirectedLabelledGraph.mem_vertices]
  constructor
  · intro hb
    obtain ⟨j, hj, rfl⟩ := List.mem_map.mp hb
    refine ⟨hk.lt _ (getD_mem (hlt j hj)), ?_⟩
    exact connected_of_subgraph ((Components.mem_iff_connected hvs hi).mp hj).2
  · rintro ⟨hb, hconnected⟩
    have hmem := hk.closed _ (getD_mem (hlt i hi)) b hb hconnected
    have hidx := List.idxOf_lt_length_of_mem hmem
    refine List.mem_map.mpr ⟨kept.idxOf b, ?_, getD_idxOf hmem⟩
    refine (Components.mem_iff_connected hvs hi).mpr ⟨?_, ?_⟩
    · exact DirectedLabelledGraph.mem_vertices.mpr (hidx.trans_eq (size_subgraph g kept).symm)
    · apply h.connected_subgraph hk.nodup hk.lt (hlt i hi) hidx
      rwa [getD_idxOf hmem]

/-- A component that is kept is one of the sub-graph. -/
theorem exists_inGraph_eq (hk : KeepsComponents g kept) (h : Blocks g)
    (hvs : vs ∈ g.unionComponents) (hv : v ∈ vs) (hkept : v ∈ kept) :
    ∃ vs' ∈ (g.subgraph kept).unionComponents, inGraph kept vs' = vs := by
  have hidx := List.idxOf_lt_length_of_mem hkept
  have hvertex : kept.idxOf v ∈ (g.subgraph kept).vertices :=
    DirectedLabelledGraph.mem_vertices.mpr (hidx.trans_eq (size_subgraph g kept).symm)
  obtain ⟨vs', hvs', hin⟩ := @Components.exists_component _ _ _ (g.subgraph kept).endpoints _ hvertex
  refine ⟨vs', hvs', Components.eq_of_mem (DirectedLabelledGraph.nodup_vertices g)
    (hk.inGraph_mem h hvs') hvs (List.mem_map.mpr ⟨_, hin, getD_idxOf hkept⟩) hv⟩

theorem injOn_inGraph (hk : KeepsComponents g kept) :
    Set.InjOn (inGraph kept) {vs | vs ∈ (g.subgraph kept).unionComponents} := by
  intro vs hvs vs' hvs' heq
  have hback (vs) (hvs : vs ∈ (g.subgraph kept).unionComponents) :
      (inGraph kept vs).map kept.idxOf = vs := by
    rw [inGraph, List.map_map]
    refine (List.map_congr_left fun i hi => ?_).trans (List.map_id vs)
    exact idxOf_getD hk.nodup ((lt_of_mem_unionComponents hvs hi).trans_eq (size_subgraph g kept))
  rw [← hback vs hvs, ← hback vs' hvs', heq]

end KeepsComponents

end Graphs

section Operands

variable {t : HypertrieTrait K V} {F : Nat → Finset (SingleEntry K V) → Prop}
variable {ns : NodeStorage M K V} {operands : List (LabelledOperand K V)} {projVars : List Label}
variable {g : DirectedLabelledGraph} {kept vs : List Nat}

theorem getElem?_componentOperands (h : ∀ v ∈ kept, v < operands.length) (i : Nat) :
    (componentOperands operands kept)[i]? = kept[i]?.bind (operands[·]?) := by
  induction kept generalizing i with
  | nil => rfl
  | cons v kept ih =>
    obtain ⟨hv, h⟩ := List.forall_mem_cons.mp h
    rw [componentOperands_cons hv]
    cases i with
    | zero => simp [List.getElem?_eq_getElem hv]
    | succ i => simpa using ih h i

theorem componentOperands_inGraph (h : ∀ v ∈ kept, v < operands.length)
    (hlt : ∀ i ∈ vs, i < kept.length) :
    componentOperands (componentOperands operands kept) vs = componentOperands operands (inGraph kept vs) := by
  show vs.filterMap _ = (vs.map _).filterMap _
  rw [List.filterMap_map]
  refine List.filterMap_congr fun i hi => ?_
  rw [getElem?_componentOperands h, List.getElem?_eq_getElem (hlt i hi), Function.comp_apply,
    List.getD_eq_getElem _ _ (hlt i hi)]
  rfl

variable [Inhabited K]

/-- An empty operand has no solutions. -/
theorem entries_ne_empty (hσ : (solutions operands).Nonempty) :
    ∀ o ∈ operands, o.entries ≠ ∅ := by
  obtain ⟨σ, hσ, -⟩ := hσ
  intro o ho hempty
  obtain ⟨e, he, -⟩ := mem_constraints.mp hσ o ho
  rw [hempty] at he
  exact Finset.notMem_empty e he

/-- The union with only some of its components, which have all solutions. -/
structure Prunes (g : DirectedLabelledGraph) (operands : List (LabelledOperand K V))
    (g' : DirectedLabelledGraph) (operands' : List (LabelledOperand K V)) (ρ : List Nat → List Nat) :
    Prop where
  injOn : Set.InjOn (fun p : List Nat × (Label → K) => (ρ p.1, p.2))
    (unionSolutions operands' g'.unionComponents)
  solutions : unionSolutions operands g.unionComponents =
    (fun p : List Nat × (Label → K) => (ρ p.1, p.2)) '' unionSolutions operands' g'.unionComponents

theorem KeepsComponents.prunes (hk : KeepsComponents g kept) (h : Blocks g)
    (hsize : g.size = operands.length)
    (hkept : ∀ vs ∈ g.unionComponents, (∀ o ∈ componentOperands operands vs, o.entries ≠ ∅) →
      ∀ v ∈ vs, v ∈ kept) :
    Prunes g operands (g.subgraph kept) (componentOperands operands kept) (inGraph kept) := by
  have hlt (v) (hv : v ∈ kept) : v < operands.length := hsize ▸ hk.lt v hv
  have hcomp (vs) (hvs : vs ∈ (g.subgraph kept).unionComponents) :
      componentOperands (componentOperands operands kept) vs =
        componentOperands operands (inGraph kept vs) :=
    componentOperands_inGraph hlt fun i hi =>
      (lt_of_mem_unionComponents hvs hi).trans_eq (size_subgraph g kept)
  constructor
  case injOn =>
    rintro ⟨vs, σ⟩ ⟨hvs, -⟩ ⟨vs', σ'⟩ ⟨hvs', -⟩ heq
    obtain ⟨heq, rfl⟩ := Prod.mk_inj.mp heq
    exact Prod.ext (hk.injOn_inGraph hvs hvs' heq) rfl
  case solutions =>
    ext ⟨vs, σ⟩
    constructor
    · rintro ⟨hvs, hσ⟩
      obtain ⟨v, hv⟩ := List.exists_mem_of_ne_nil _ (Components.ne_nil_of_mem hvs)
      obtain ⟨vs', hvs', rfl⟩ := hk.exists_inGraph_eq h hvs hv
        (hkept vs hvs (entries_ne_empty ⟨σ, hσ⟩) v hv)
      refine ⟨(vs', σ), ⟨hvs', ?_⟩, rfl⟩
      show σ ∈ LabelledOperand.solutions _
      rw [hcomp vs' hvs']
      exact hσ
    · rintro ⟨⟨vs', σ'⟩, ⟨hvs', hσ⟩, heq⟩
      obtain ⟨rfl, rfl⟩ := Prod.mk_inj.mp heq
      refine ⟨hk.inGraph_mem h hvs', ?_⟩
      show σ' ∈ LabelledOperand.solutions _
      rw [← hcomp vs' hvs']
      exact hσ

/-- What is left after pruning is a union without empty operands that has the same solutions. -/
theorem pruneEmptyOperands_spec (h : Blocks g) (hv : g.varIds = operands.map (·.labels))
    (ho : ∀ o ∈ operands, o.Held t F ns) (hlen : operands.length < posTypeCount)
    (hn : projVars.Nodup) :
    Ensures (pruneEmptyOperands g (operands.map (·.hypertrie))) (fun res => ∃ g' operands' ρ,
      res = (g', operands'.map (·.hypertrie)) ∧ UnionQuery t F ns g' operands' projVars ∧
        Prunes g operands g' operands' ρ) := by
  have hsize : g.size = operands.length := by
    rw [DirectedLabelledGraph.size, hv, List.length_map]
  have hempty (o) (hm : o ∈ operands) : o.hypertrie.empty = true ↔ o.entries = ∅ :=
    (ho o hm).holds.empty_iff
  obtain ⟨emptyOps, hemptyOps, hpositions⟩ := @OperandDependencyGraph.collectLoop_spec
    (operands.map (·.hypertrie)).length (fun i => (operands.map (·.hypertrie))[i]?.any (·.empty))
    (by rwa [List.length_map])
  have hmem (i : Nat) (hi : i < operands.length) :
      i ∈ emptyOps.map BitVec.toNat ↔ operands[i].entries = ∅ := by
    rw [hpositions, List.mem_filter, List.mem_range, List.length_map, and_iff_right hi,
      List.getElem?_map, List.getElem?_eq_getElem hi]
    exact hempty _ (List.getElem_mem hi)
  rw [pruneEmptyOperands, Evaluation.emptyOps, hemptyOps]
  simp only [Option.bind_eq_bind, Option.bind_some]
  by_cases hnil : emptyOps = []
  · rw [if_pos hnil]
    refine Ensures.pure ⟨g, operands, id, rfl, ⟨⟨fun o hm => ?_, hlen.le, hn⟩, h, hv⟩, ?_, ?_⟩
    · obtain ⟨i, hi, rfl⟩ := List.mem_iff_getElem.mp hm
      have hheld := ho _ hm
      refine ⟨hheld.holds, Finset.nonempty_iff_ne_empty.mpr fun hentries => ?_, hheld.depth, hheld.labels⟩
      have hin := (hmem i hi).mpr hentries
      rw [hnil] at hin
      exact List.not_mem_nil hin
    · exact Function.injective_id.injOn
    · exact (Set.image_id _).symm
  · have hvalid (a) (ha : a ∈ emptyOps) : a.toNat < g.size := by
      have hin := List.mem_map_of_mem (f := BitVec.toNat) ha
      rw [hpositions, List.mem_filter, List.mem_range, List.length_map] at hin
      exact hin.1.trans_eq hsize.symm
    rw [if_neg hnil]
    refine Ensures.bind (h.prunedVertices_spec (by omega) hvalid) ?_
    rintro kept ⟨hsub, hkeptIff⟩
    have hk : KeepsComponents g kept := by
      refine ⟨hsub, fun u hu v hv hconnected => (hkeptIff v).mpr ⟨hv, fun a ha hreach => ?_⟩⟩
      exact ((hkeptIff u).mp hu).2 a ha (hreach.trans hconnected.symm)
    have hlt (v) (hv : v ∈ kept) : v < operands.length := hsize ▸ hk.lt v hv
    have hle : kept.length ≤ operands.length := by
      have hle := hsub.length_le
      rwa [DirectedLabelledGraph.vertices, List.length_range, hsize] at hle
    rw [operandsAt_eq hlen.le hlt]
    refine Ensures.pure ⟨_, _, inGraph kept, rfl, ⟨⟨fun o hm => ?_, ?_, hn⟩, ?_, ?_⟩, ?_⟩
    · obtain ⟨v, hv, hget⟩ := List.mem_filterMap.mp hm
      obtain ⟨hv', rfl⟩ := List.getElem?_eq_some_iff.mp hget
      have hheld := ho _ (List.getElem_mem hv')
      refine ⟨hheld.holds, Finset.nonempty_iff_ne_empty.mpr fun hentries => ?_, hheld.depth, hheld.labels⟩
      obtain ⟨a, ha, hav⟩ := List.mem_map.mp ((hmem v hv').mpr hentries)
      exact ((hkeptIff v).mp hv).2 a ha (hav ▸ .refl)
    · rw [length_componentOperands hlt]
      exact hle.trans hlen.le
    · exact h.subgraph hk.nodup hk.lt
    · exact varIds_componentOperands hv hlt
    · refine hk.prunes h hsize fun vs hvs hne v hin => (hkeptIff v).mpr ⟨?_, fun a ha hreach => ?_⟩
      · exact lt_of_mem_unionComponents hvs hin
      · have haIn : a.toNat ∈ vs := (Components.mem_iff_connected hvs hin).mpr
          ⟨DirectedLabelledGraph.mem_vertices.mpr (hvalid a ha), hreach.symm⟩
        have hlt' : a.toNat < operands.length := (hvalid a ha).trans_eq hsize
        refine hne operands[a.toNat] ?_ ((hmem _ hlt').mp (List.mem_map_of_mem ha))
        exact List.mem_filterMap.mpr ⟨_, haIn, List.getElem?_eq_getElem hlt'⟩

/-- A union with all operands nonempty has no scalars. -/
theorem removeRank0Operands_eq (hu : UnionQuery t F ns g operands projVars) :
    removeRank0Operands g (operands.map (·.hypertrie)) = some (g, operands.map (·.hypertrie)) := by
  rw [removeRank0Operands, if_pos]
  rw [Evaluation.rank0Ops, List.map_eq_nil_iff, List.filter_eq_nil_iff]
  intro i hi
  rw [List.length_map, List.mem_range] at hi
  have hvalid := hu.problem.valid _ (List.getElem_mem hi)
  have hpos := List.length_pos_iff.mpr hvalid.labels
  rw [List.getElem?_map, List.getElem?_eq_getElem hi, Option.map_some, Option.any_some,
    decide_eq_true_eq, hvalid.depth]
  omega

end Operands

end Query

end Hypertrie
