import Hypertrie.QueryGraph

/-! Graphs without optional operands. The operands of a conjunction are a block: each has
an edge to each other one, labelled with the variables they share. The alternatives of a
union are blocks without edges between them. -/

namespace Hypertrie

namespace Query

open DirectedLabelledGraph

/-- The graph of a union of conjunctions. Operands that are connected have edges to each other, one
for each variable they share. -/
structure Blocks (g : DirectedLabelledGraph) : Prop where
  inRange : ∀ e ∈ g.edges, e.source < g.size ∧ e.target < g.size
  required : ∀ e ∈ g.edges, e.isOpt = false
  named : ∀ vars ∈ g.varIds, (0 : Label) ∉ vars
  complete : ∀ u < g.size, ∀ v < g.size, u ≠ v → Components.Connected g.endpoints u v →
    g.hasEdge u v = true
  shared : ∀ u < g.size, ∀ v < g.size, u ≠ v → Components.Connected g.endpoints u v →
    ∀ x ∈ g.operandVarIds u, x ∈ g.operandVarIds v →
      ∃ e ∈ g.edges, e.source = u ∧ e.target = v ∧ e.varId = x

/-- The graph of one conjunction. -/
structure Block (g : DirectedLabelledGraph) : Prop extends Blocks g where
  connected : ∀ u < g.size, ∀ v < g.size, Components.Connected g.endpoints u v

/-- Blocks are found by a number for each vertex: there are edges between vertices with the same
number, and only between these. -/
theorem Blocks.of_numbers {g : DirectedLabelledGraph} (number : Nat → Nat)
    (inRange : ∀ e ∈ g.edges, e.source < g.size ∧ e.target < g.size)
    (required : ∀ e ∈ g.edges, e.isOpt = false) (named : ∀ vars ∈ g.varIds, (0 : Label) ∉ vars)
    (same : ∀ e ∈ g.edges, number e.source = number e.target)
    (complete : ∀ u ∈ g.vertices, ∀ v ∈ g.vertices, u ≠ v → number u = number v →
      g.hasEdge u v = true)
    (shared : ∀ u ∈ g.vertices, ∀ v ∈ g.vertices, u ≠ v → number u = number v →
      ∀ x ∈ g.operandVarIds u, x ∈ g.operandVarIds v →
        ∃ e ∈ g.edges, e.source = u ∧ e.target = v ∧ e.varId = x) : Blocks g := by
  have hsame {u v : Nat} (h : Components.Edge g.endpoints u v) : number u = number v := by
    obtain ⟨e, he, rfl, rfl⟩ := hasEdge_iff.mp (edge_endpoints.mp h)
    exact same e he
  have hnumber {u v : Nat} (h : Components.Connected g.endpoints u v) : number u = number v := by
    induction h with
    | refl => rfl
    | tail _ hstep ih =>
      refine ih.trans ?_
      rcases Components.edge_undirected.mp hstep with h | h
      · exact hsame h
      · exact (hsame h).symm
  have hmem {v : Nat} (hv : v < g.size) : v ∈ g.vertices := mem_vertices.mpr hv
  exact ⟨inRange, required, named, fun u hu v hv hne h => complete u (hmem hu) v (hmem hv) hne (hnumber h),
    fun u hu v hv hne h => shared u (hmem hu) v (hmem hv) hne (hnumber h)⟩

/-- The labels of the edges between two operands; without a shared variable there is one without a
label. -/
def sharedVarIds (varIds varIds' : List Label) : List Label :=
  let shared := varIds.dedup.filter (varIds'.contains ·)
  if shared = [] then [0] else shared

/-- The graph of a conjunction of operands, with edges in both directions between each pair. -/
def conjunctionGraph (varIds : List (List Label)) : DirectedLabelledGraph where
  varIds := varIds
  edges := (List.range varIds.length).flatMap fun u =>
    ((List.range varIds.length).filter (· ≠ u)).flatMap fun v =>
      (sharedVarIds (varIds.getD u []) (varIds.getD v [])).map fun varId => ⟨u, v, varId, false⟩

theorem sharedVarIds_ne_nil (varIds varIds' : List Label) : sharedVarIds varIds varIds' ≠ [] := by
  rw [sharedVarIds]
  split
  next => exact List.cons_ne_nil _ _
  next h => exact h

theorem mem_sharedVarIds {varIds varIds' : List Label} {x : Label} (h : x ∈ varIds) (h' : x ∈ varIds') :
    x ∈ sharedVarIds varIds varIds' := by
  have hmem : x ∈ varIds.dedup.filter (varIds'.contains ·) :=
    List.mem_filter.mpr ⟨List.mem_dedup.mpr h, List.contains_iff_mem.mpr h'⟩
  rwa [sharedVarIds, if_neg (List.ne_nil_of_mem hmem)]

theorem mem_edges_conjunctionGraph {varIds : List (List Label)} {e : LabelledEdge} :
    e ∈ (conjunctionGraph varIds).edges ↔ e.source < varIds.length ∧ e.target < varIds.length ∧
      e.target ≠ e.source ∧ e.isOpt = false ∧
        e.varId ∈ sharedVarIds (varIds.getD e.source []) (varIds.getD e.target []) := by
  simp only [conjunctionGraph, List.mem_flatMap, List.mem_map, List.mem_filter, List.mem_range,
    decide_eq_true_eq]
  constructor
  · rintro ⟨u, hu, v, ⟨hv, hne⟩, x, hx, rfl⟩
    exact ⟨hu, hv, hne, rfl, hx⟩
  · rintro ⟨hu, hv, hne, hopt, hx⟩
    exact ⟨e.source, hu, e.target, ⟨hv, hne⟩, e.varId, hx, by rw [← hopt]⟩

/-- It is one block. -/
theorem block_conjunctionGraph {varIds : List (List Label)} (hnamed : ∀ vars ∈ varIds, (0 : Label) ∉ vars) :
    Block (conjunctionGraph varIds) := by
  have hedge {u v : Nat} (hu : u < varIds.length) (hv : v < varIds.length) (hne : u ≠ v) {x : Label}
      (hx : x ∈ sharedVarIds (varIds.getD u []) (varIds.getD v [])) :
      (⟨u, v, x, false⟩ : LabelledEdge) ∈ (conjunctionGraph varIds).edges :=
    mem_edges_conjunctionGraph.mpr ⟨hu, hv, hne.symm, rfl, hx⟩
  have hcomplete {u v : Nat} (hu : u < varIds.length) (hv : v < varIds.length) (hne : u ≠ v) :
      (conjunctionGraph varIds).hasEdge u v = true := by
    obtain ⟨x, hx⟩ := List.exists_mem_of_ne_nil _
      (sharedVarIds_ne_nil (varIds.getD u []) (varIds.getD v []))
    exact hasEdge_iff.mpr ⟨_, hedge hu hv hne hx, rfl, rfl⟩
  refine ⟨⟨fun e he => ?_, fun e he => ?_, hnamed, fun u hu v hv hne _ => hcomplete hu hv hne,
    fun u hu v hv hne _ x hx hx' => ?_⟩, fun u hu v hv => ?_⟩
  · exact ⟨(mem_edges_conjunctionGraph.mp he).1, (mem_edges_conjunctionGraph.mp he).2.1⟩
  · exact (mem_edges_conjunctionGraph.mp he).2.2.2.1
  · exact ⟨_, hedge hu hv hne (mem_sharedVarIds hx hx'), rfl, rfl, rfl⟩
  · by_cases hne : u = v
    · rw [hne]
      exact .refl
    · exact Components.connected_of_edge (edge_endpoints.mpr (hcomplete hu hv hne))

namespace DirectedLabelledGraph

variable {g : DirectedLabelledGraph} {vs : List Nat} {i j u v : Nat} {x : Label} {e : LabelledEdge}

section Subgraph

@[simp]
theorem size_subgraph (g : DirectedLabelledGraph) (vs : List Nat) :
    (g.subgraph vs).size = vs.length := List.length_map ..

theorem getD_mem (hi : i < vs.length) : vs.getD i 0 ∈ vs := by
  rw [List.getD_eq_getElem _ _ hi]
  exact List.getElem_mem hi

theorem idxOf_getD (hn : vs.Nodup) (hi : i < vs.length) : vs.idxOf (vs.getD i 0) = i := by
  rw [List.getD_eq_getElem _ _ hi]
  exact hn.idxOf_getElem i hi

theorem getD_idxOf (hu : u ∈ vs) : vs.getD (vs.idxOf u) 0 = u := by
  rw [List.getD_eq_getElem _ _ (List.idxOf_lt_length_of_mem hu), List.getElem_idxOf]

theorem operandVarIds_subgraph (g : DirectedLabelledGraph) (hi : i < vs.length) :
    (g.subgraph vs).operandVarIds i = g.operandVarIds (vs.getD i 0) := by
  have hi' : i < (vs.map g.operandVarIds).length := by rwa [List.length_map]
  rw [operandVarIds, subgraph, List.getD_eq_getElem _ _ hi', List.getElem_map,
    List.getD_eq_getElem _ _ hi]

theorem mem_edges_subgraph : e ∈ (g.subgraph vs).edges ↔ ∃ e' ∈ g.edges, e'.source ∈ vs ∧
    e'.target ∈ vs ∧ { e' with source := vs.idxOf e'.source, target := vs.idxOf e'.target } = e := by
  simp only [subgraph, List.mem_map, List.mem_filter, decide_eq_true_eq, and_assoc]

theorem hasEdge_subgraph (hn : vs.Nodup) (hi : i < vs.length) (hj : j < vs.length) :
    (g.subgraph vs).hasEdge i j = true ↔ g.hasEdge (vs.getD i 0) (vs.getD j 0) = true := by
  rw [hasEdge_iff, hasEdge_iff]
  constructor
  · rintro ⟨e, he, hs, ht⟩
    obtain ⟨e', he', hs', ht', rfl⟩ := mem_edges_subgraph.mp he
    refine ⟨e', he', ?_, ?_⟩
    · rw [← hs, getD_idxOf hs']
    · rw [← ht, getD_idxOf ht']
  · rintro ⟨e, he, hs, ht⟩
    refine ⟨_, mem_edges_subgraph.mpr ⟨e, he, ?_, ?_, rfl⟩, ?_, ?_⟩
    · exact hs ▸ getD_mem hi
    · exact ht ▸ getD_mem hj
    · show vs.idxOf e.source = i
      rw [hs, idxOf_getD hn hi]
    · show vs.idxOf e.target = j
      rw [ht, idxOf_getD hn hj]

/-- What is connected in the sub-graph is so in the graph. -/
theorem connected_of_subgraph (h : Components.Connected (g.subgraph vs).endpoints i j) :
    Components.Connected g.endpoints (vs.getD i 0) (vs.getD j 0) := by
  have hedge {i j : Nat} (h : Components.Edge (g.subgraph vs).endpoints i j) :
      Components.Edge g.endpoints (vs.getD i 0) (vs.getD j 0) := by
    obtain ⟨e, he, rfl, rfl⟩ := hasEdge_iff.mp (edge_endpoints.mp h)
    obtain ⟨e', he', hs', ht', rfl⟩ := mem_edges_subgraph.mp he
    rw [edge_endpoints, hasEdge_iff]
    exact ⟨e', he', (getD_idxOf hs').symm, (getD_idxOf ht').symm⟩
  refine Relation.ReflTransGen.lift (fun i => vs.getD i 0) ?_ i j h
  intro i j hij
  rw [Components.edge_undirected] at hij
  exact Components.edge_undirected.mpr (hij.imp hedge hedge)

end Subgraph

end DirectedLabelledGraph

section Invariants

variable {g : DirectedLabelledGraph} {vs : List Nat} {u v : Nat} {x : Label}

theorem Blocks.subgraph (h : Blocks g) (hn : vs.Nodup) (hlt : ∀ v ∈ vs, v < g.size) :
    Blocks (g.subgraph vs) := by
  have hsize := size_subgraph g vs
  have hdistinct {i j : Nat} (hi : i < vs.length) (hj : j < vs.length) (hij : i ≠ j) :
      vs.getD i 0 ≠ vs.getD j 0 := by
    intro heq
    rw [← idxOf_getD hn hi, ← idxOf_getD hn hj, heq] at hij
    exact hij rfl
  constructor
  case inRange =>
    intro e he
    obtain ⟨e', -, hs, ht, rfl⟩ := mem_edges_subgraph.mp he
    rw [hsize]
    exact ⟨List.idxOf_lt_length_of_mem hs, List.idxOf_lt_length_of_mem ht⟩
  case required =>
    intro e he
    obtain ⟨e', he', -, -, rfl⟩ := mem_edges_subgraph.mp he
    exact h.required e' he'
  case named =>
    intro vars hvars
    obtain ⟨v, hv, rfl⟩ := List.mem_map.mp hvars
    exact h.named _ (operandVarIds_mem (hlt v hv))
  case complete =>
    intro i hi j hj hij hconnected
    rw [hsize] at hi hj
    rw [hasEdge_subgraph hn hi hj]
    exact h.complete _ (hlt _ (getD_mem hi)) _ (hlt _ (getD_mem hj)) (hdistinct hi hj hij)
      (connected_of_subgraph hconnected)
  case shared =>
    intro i hi j hj hij hconnected x hx hx'
    rw [hsize] at hi hj
    rw [operandVarIds_subgraph g hi] at hx
    rw [operandVarIds_subgraph g hj] at hx'
    obtain ⟨e, he, hs, ht, hvar⟩ := h.shared _ (hlt _ (getD_mem hi)) _ (hlt _ (getD_mem hj))
      (hdistinct hi hj hij) (connected_of_subgraph hconnected) x hx hx'
    refine ⟨_, mem_edges_subgraph.mpr ⟨e, he, hs ▸ getD_mem hi, ht ▸ getD_mem hj, rfl⟩, ?_, ?_, hvar⟩
    · show vs.idxOf e.source = i
      rw [hs, idxOf_getD hn hi]
    · show vs.idxOf e.target = j
      rw [ht, idxOf_getD hn hj]

/-- Connected vertices of a graph of blocks are still connected in a sub-graph that has both. -/
theorem Blocks.connected_subgraph (h : Blocks g) (hn : vs.Nodup) (hlt : ∀ v ∈ vs, v < g.size)
    {i j : Nat} (hi : i < vs.length) (hj : j < vs.length)
    (hconnected : Components.Connected g.endpoints (vs.getD i 0) (vs.getD j 0)) :
    Components.Connected (g.subgraph vs).endpoints i j := by
  by_cases hij : i = j
  · rw [hij]
    exact .refl
  · have hne : vs.getD i 0 ≠ vs.getD j 0 := by
      intro heq
      rw [← idxOf_getD hn hi, ← idxOf_getD hn hj, heq] at hij
      exact hij rfl
    apply Components.connected_of_edge
    rw [edge_endpoints, hasEdge_subgraph hn hi hj]
    exact h.complete _ (hlt _ (getD_mem hi)) _ (hlt _ (getD_mem hj)) hne hconnected

theorem Block.subgraph (h : Block g) (hn : vs.Nodup) (hlt : ∀ v ∈ vs, v < g.size) :
    Block (g.subgraph vs) := by
  refine ⟨h.toBlocks.subgraph hn hlt, fun i hi j hj => ?_⟩
  rw [size_subgraph] at hi hj
  exact h.toBlocks.connected_subgraph hn hlt hi hj
    (h.connected _ (hlt _ (getD_mem hi)) _ (hlt _ (getD_mem hj)))

theorem endpoints_eraseVarId (g : DirectedLabelledGraph) (x : Label) :
    (g.eraseVarId x).endpoints = g.endpoints := by
  rw [endpoints, eraseVarId, List.map_map]
  rfl

theorem hasEdge_eraseVarId (g : DirectedLabelledGraph) (x : Label) (u v : Nat) :
    (g.eraseVarId x).hasEdge u v = g.hasEdge u v := by
  rw [Bool.eq_iff_iff, ← edge_endpoints, ← edge_endpoints, endpoints_eraseVarId]

theorem size_eraseVarId (g : DirectedLabelledGraph) (x : Label) : (g.eraseVarId x).size = g.size :=
  List.length_map ..

theorem operandVarIds_eraseVarId (g : DirectedLabelledGraph) (x : Label) (v : Nat) :
    (g.eraseVarId x).operandVarIds v = (g.operandVarIds v).filter (· ≠ x) := by
  rw [operandVarIds, operandVarIds, eraseVarId, List.getD_eq_getElem?_getD, List.getElem?_map,
    List.getD_eq_getElem?_getD]
  cases g.varIds[v]? with
  | none => rfl
  | some vars => rfl

theorem Blocks.eraseVarId (h : Blocks g) (x : Label) : Blocks (g.eraseVarId x) := by
  constructor
  case inRange =>
    intro e he
    obtain ⟨e', he', rfl⟩ := List.mem_map.mp he
    rw [size_eraseVarId]
    exact h.inRange e' he'
  case required =>
    intro e he
    obtain ⟨e', he', rfl⟩ := List.mem_map.mp he
    exact h.required e' he'
  case named =>
    intro vars hvars
    obtain ⟨vars', hvars', rfl⟩ := List.mem_map.mp hvars
    exact fun hzero => h.named vars' hvars' (List.mem_filter.mp hzero).1
  case complete =>
    intro u hu v hv huv hconnected
    rw [size_eraseVarId] at hu hv
    rw [endpoints_eraseVarId] at hconnected
    rw [hasEdge_eraseVarId]
    exact h.complete u hu v hv huv hconnected
  case shared =>
    intro u hu v hv huv hconnected y hy hy'
    rw [size_eraseVarId] at hu hv
    rw [endpoints_eraseVarId] at hconnected
    rw [operandVarIds_eraseVarId] at hy hy'
    obtain ⟨hy, hne⟩ := List.mem_filter.mp hy
    obtain ⟨e, he, hs, ht, rfl⟩ := h.shared u hu v hv huv hconnected y hy (List.mem_filter.mp hy').1
    refine ⟨_, List.mem_map_of_mem he, hs, ht, ?_⟩
    exact if_neg (of_decide_eq_true hne)

/-- Removing a variable leaves a block. -/
theorem Block.removeVarId (h : Block g) (x : Label) : Block (g.removeVarId x) := by
  have hsub : Block (g.subgraph (g.vertices.filter fun v => (g.operandVarIds v).any (· != x))) := by
    apply h.subgraph ((nodup_vertices g).filter _)
    exact fun v hv => mem_vertices.mp (List.mem_filter.mp hv).1
  refine ⟨hsub.toBlocks.eraseVarId x, fun u hu v hv => ?_⟩
  rw [DirectedLabelledGraph.removeVarId, size_eraseVarId] at hu hv
  rw [DirectedLabelledGraph.removeVarId, endpoints_eraseVarId]
  exact hsub.connected u hu v hv

/-- The variables of the operands that are left. -/
theorem varIds_removeVarId (g : DirectedLabelledGraph) (x : Label) : (g.removeVarId x).varIds =
    (g.varIds.map (·.filter (· ≠ x))).filter (· ≠ []) := by
  have hfilter : (g.vertices.filter fun v => (g.operandVarIds v).any (· != x)).map g.operandVarIds =
      g.varIds.filter (·.any (· != x)) := by
    conv_rhs => rw [← map_operandVarIds_vertices g, List.filter_map]
    rfl
  show ((g.vertices.filter fun v => (g.operandVarIds v).any (· != x)).map g.operandVarIds).map
    (·.filter (· ≠ x)) = _
  rw [hfilter, List.filter_map]
  congr 1
  apply List.filter_congr
  intro vars _
  rw [Bool.eq_iff_iff, List.any_eq_true, Function.comp_apply, decide_eq_true_eq, ne_eq,
    List.filter_eq_nil_iff]
  simp

end Invariants

section Components

variable {g : DirectedLabelledGraph} {c c' : List Nat} {u v : Nat} {x : Label}

theorem Block.length_unionComponents (h : Block g) : g.unionComponents.length ≤ 1 :=
  Components.length_le_one (nodup_vertices g) fun u hu v hv =>
    h.connected u (mem_vertices.mp hu) v (mem_vertices.mp hv)

theorem lt_of_mem_unionComponents (hc : c ∈ g.unionComponents) (hv : v ∈ c) : v < g.size :=
  mem_vertices.mp ((Components.sublist_of_mem hc).subset hv)

/-- The components of a union are blocks. -/
theorem Blocks.block_unionComponent (h : Blocks g) (hc : c ∈ g.unionComponents) :
    Block (g.subgraph c) := by
  have hn := (nodup_vertices g).sublist (Components.sublist_of_mem hc)
  have hlt (v) (hv : v ∈ c) : v < g.size := lt_of_mem_unionComponents hc hv
  refine ⟨h.subgraph hn hlt, fun i hi j hj => ?_⟩
  rw [size_subgraph] at hi hj
  apply h.connected_subgraph hn hlt hi hj
  exact ((Components.mem_iff_connected hc (getD_mem hi)).mp (getD_mem hj)).2

theorem Block.stronglyConnected (h : Block g) (hu : u < g.size) (hv : v < g.size) :
    g.stronglyConnected u v = true := by
  have hreach {u v : Nat} (hu : u < g.size) (hv : v < g.size) :
      v ∈ Components.reachable g.endpoints u := by
    rw [Components.mem_reachable]
    by_cases huv : u = v
    · rw [huv]
    · exact .single (edge_endpoints.mpr (h.complete u hu v hv huv (h.connected u hu v hv)))
  exact decide_eq_true ⟨hreach hu hv, hreach hv hu⟩

/-- All operands of a block are in the ISC. -/
theorem Block.iscOperands_eq (h : Block g) : g.iscOperands = g.vertices := by
  apply List.filter_eq_self.mpr
  intro v hv
  rw [List.all_eq_true]
  intro e he
  rw [h.stronglyConnected (h.inRange e he).1 (mem_vertices.mp hv), Bool.or_true]

theorem Blocks.optionalCartesian_eq (h : Blocks g) : g.optionalCartesian = false := by
  rw [optionalCartesian, List.any_eq_false]
  intro e he
  simp [h.required e he]

theorem lt_of_mem_cartesianComponents (hc : c ∈ g.cartesianComponents) (hv : v ∈ c) : v < g.size :=
  mem_vertices.mp ((Components.sublist_of_mem hc).subset hv)

theorem nodup_of_mem_cartesianComponents (hc : c ∈ g.cartesianComponents) : c.Nodup :=
  (nodup_vertices g).sublist (Components.sublist_of_mem hc)

theorem Block.cartesianComponent (h : Block g) (hc : c ∈ g.cartesianComponents) :
    Block (g.subgraph c) :=
  h.subgraph (nodup_of_mem_cartesianComponents hc) fun _ hv => lt_of_mem_cartesianComponents hc hv

/-- Operands that share a variable are in one component. -/
theorem Block.mem_of_shared (h : Block g) (hc : c ∈ g.cartesianComponents) (hu : u ∈ c)
    (hv : v < g.size) (hx : x ∈ g.operandVarIds u) (hx' : x ∈ g.operandVarIds v) : v ∈ c := by
  by_cases huv : u = v
  · exact huv ▸ hu
  · have hlt := lt_of_mem_cartesianComponents hc hu
    obtain ⟨e, he, rfl, rfl, rfl⟩ := h.shared u hlt v hv huv (h.connected u hlt v hv) x hx hx'
    have hne : e.varId ≠ 0 := fun h0 => h.named _ (operandVarIds_mem hlt) (h0 ▸ hx)
    refine (Components.mem_iff_connected hc hu).mpr ⟨mem_vertices.mpr hv, ?_⟩
    apply Components.connected_of_edge
    apply List.mem_append_left
    refine List.mem_map.mpr ⟨e, List.mem_filter.mpr ⟨he, ?_⟩, rfl⟩
    rw [bne_iff_ne.mpr hne, Bool.or_true]

/-- Different components have different variables. -/
theorem Block.disjoint_operandsVarIdsSet (h : Block g) : g.cartesianComponents.Pairwise
    fun c c' => (g.subgraph c).operandsVarIdsSet.Disjoint (g.subgraph c').operandsVarIdsSet := by
  refine (Components.pairwise_disjoint (nodup_vertices g)).imp_of_mem fun {c c'} hc hc' hdisj x hx hx' => ?_
  obtain ⟨vars, hvars, hx⟩ := mem_operandsVarIdsSet.mp hx
  obtain ⟨vars', hvars', hx'⟩ := mem_operandsVarIdsSet.mp hx'
  obtain ⟨u, hu, rfl⟩ := List.mem_map.mp hvars
  obtain ⟨v, hv, rfl⟩ := List.mem_map.mp hvars'
  exact hdisj (h.mem_of_shared hc hu (lt_of_mem_cartesianComponents hc' hv) hx hx') hv

end Components

end Query

end Hypertrie
