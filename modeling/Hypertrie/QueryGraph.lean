import Hypertrie.Library.Components
import Hypertrie.OperandDependencyGraph
import Hypertrie.Subscript

/-! The dependency graph of a query with the variables of its operands. Graphs are values
here: what the source keeps of earlier calls is computed anew, and a sub-graph has its own
numbers for its vertices. -/

namespace Hypertrie

namespace Query

/-- An edge with its `EdgeProperties`; the variable `'\0'` is no label. -/
structure LabelledEdge where
  source : Nat
  target : Nat
  varId : Label
  isOpt : Bool
  deriving DecidableEq

/-- The variables of the operands, in the order in which these were added, and the edges. -/
structure DirectedLabelledGraph where
  varIds : List (List Label)
  edges : List LabelledEdge
  deriving DecidableEq

/-- `flat_set`: no duplicates, in the order of `char`. -/
def flatSet (varIds : List Label) : List Label :=
  varIds.dedup.insertionSort (fun a b => a.sle b)

/-- A round of the loop in `lonely_var_ids`, with the lonely variables and the visited ones. -/
def visitVarId (visited : List Label × List Label) (varId : Label) : List Label × List Label :=
  if visited.1.contains varId then (visited.1.erase varId, visited.2)
  else if visited.2.contains varId then visited
  else (varId :: visited.1, varId :: visited.2)

namespace DirectedLabelledGraph

variable (g : DirectedLabelledGraph)

def size : Nat := g.varIds.length

def vertices : List Nat := List.range g.size

def operandVarIds (operand : Nat) : List Label := g.varIds.getD operand []

/-- `boost::edge`. -/
def hasEdge (source target : Nat) : Bool :=
  g.edges.any (fun e => decide (e.source = source ∧ e.target = target))

/-- `create_subgraph` with these vertices, and the edges between them. -/
def subgraph (vs : List Nat) : DirectedLabelledGraph where
  varIds := vs.map g.operandVarIds
  edges := (g.edges.filter (fun e => e.source ∈ vs ∧ e.target ∈ vs)).map
    (fun e => { e with source := vs.idxOf e.source, target := vs.idxOf e.target })

def operandsVarIdsSet : List Label := flatSet g.varIds.flatten

def lonelyVarIds : List Label := (g.varIds.flatten.foldl visitVarId ([], [])).1

def varIdsPositionsInOperands (varId : Label) : List (List Nat) :=
  g.varIds.map (Subscript.labelPossInOperand varId)

/-- The source and the target of each edge. -/
def endpoints : List (Nat × Nat) := g.edges.map (fun e => (e.source, e.target))

/-- `strong_components`: whether two vertices have the same one. -/
def stronglyConnected (u v : Nat) : Bool :=
  decide (v ∈ Components.reachable g.endpoints u ∧ u ∈ Components.reachable g.endpoints v)

/-- The vertices of the strong components that no edge enters. -/
def iscOperands : List Nat :=
  g.vertices.filter (fun v => g.edges.all
    (fun e => !g.stronglyConnected e.target v || g.stronglyConnected e.source v))

def nonOptionalVarIdsSet : List Label := flatSet (g.iscOperands.map g.operandVarIds).flatten

/-- The vertices of the components. A graph with one component is that component itself. -/
def unionComponents : List (List Nat) := Components.connectedComponents g.vertices g.endpoints

/-- Unlabelled edges are filtered out if they lead into the ISC. -/
def filteredEdges : List LabelledEdge :=
  g.edges.filter (fun e => !g.iscOperands.contains e.target || e.varId != 0)

/-- Edges for pairs of the ISC without an edge, so that unions are preserved. -/
def temporaryEdges : List (Nat × Nat) :=
  g.iscOperands.flatMap (fun first =>
    (g.iscOperands.filter (fun second => !g.hasEdge first second)).map (first, ·))

def cartesianComponents : List (List Nat) :=
  Components.connectedComponents g.vertices
    (g.filteredEdges.map (fun e => (e.source, e.target)) ++ g.temporaryEdges)

/-- `opt_cartesian_`, which the filter of the edges sets. -/
def optionalCartesian : Bool := g.edges.any (fun e => g.iscOperands.contains e.target && e.isOpt)

/-- The variable is removed from the properties of the vertices and of the edges. -/
def eraseVarId (varId : Label) : DirectedLabelledGraph where
  varIds := g.varIds.map (·.filter (· ≠ varId))
  edges := g.edges.map (fun e => { e with varId := if e.varId = varId then 0 else e.varId })

/-- Vertices without another variable are not included in the new graph. -/
def removeVarId (varId : Label) : DirectedLabelledGraph :=
  (g.subgraph (g.vertices.filter (fun v => (g.operandVarIds v).any (· != varId)))).eraseVarId varId

/-- The vertices that `remove_vertices` leaves. -/
def withoutVertices (vertices : List Vertex) : List Nat :=
  g.vertices.filter (fun v => v ∉ vertices.map BitVec.toNat)

/-- The graph without the variables. -/
def toSubgraph : Subgraph := .root g.size (g.edges.map (fun e => ⟨e.source, e.target, e.isOpt⟩))

/-- The vertices that `prune_graph` leaves. -/
def prunedVertices (emptyOperands : List Vertex) : Option (List Nat) :=
  (OperandDependencyGraph.pruned g.toSubgraph emptyOperands).map
    (fun pruned => g.vertices.filter (fun v => BitVec.ofNat 8 v ∉ pruned))

end DirectedLabelledGraph

section Sets

variable {varIds : List Label} {varId : Label}

@[simp]
theorem mem_flatSet : varId ∈ flatSet varIds ↔ varId ∈ varIds := by
  rw [flatSet, (List.perm_insertionSort _ _).mem_iff, List.mem_dedup]

theorem nodup_flatSet (varIds : List Label) : (flatSet varIds).Nodup :=
  (List.perm_insertionSort _ _).nodup_iff.mpr varIds.nodup_dedup

theorem toFinset_flatSet (varIds : List Label) : (flatSet varIds).toFinset = varIds.toFinset := by
  ext varId
  rw [List.mem_toFinset, mem_flatSet, List.mem_toFinset]

theorem length_flatSet (varIds : List Label) : (flatSet varIds).length = varIds.toFinset.card := by
  rw [← toFinset_flatSet, List.toFinset_card_of_nodup (nodup_flatSet varIds)]

end Sets

namespace DirectedLabelledGraph

variable {g : DirectedLabelledGraph} {u v : Nat} {vs : List Nat} {varId : Label}

@[simp]
theorem mem_vertices : v ∈ g.vertices ↔ v < g.size := List.mem_range

theorem nodup_vertices (g : DirectedLabelledGraph) : g.vertices.Nodup := List.nodup_range

theorem mem_operandsVarIdsSet : varId ∈ g.operandsVarIdsSet ↔ ∃ vars ∈ g.varIds, varId ∈ vars := by
  rw [operandsVarIdsSet, mem_flatSet, List.mem_flatten]

theorem operandVarIds_mem (h : v < g.size) : g.operandVarIds v ∈ g.varIds := by
  rw [operandVarIds, List.getD_eq_getElem _ _ h]
  exact List.getElem_mem h

theorem map_operandVarIds_vertices (g : DirectedLabelledGraph) :
    g.vertices.map g.operandVarIds = g.varIds := by
  apply List.ext_getElem
  · simp [vertices, size]
  · intro i hi hi'
    simp only [List.getElem_map, vertices, List.getElem_range, operandVarIds,
      List.getD_eq_getElem _ _ hi']

theorem hasEdge_iff : g.hasEdge u v = true ↔ ∃ e ∈ g.edges, e.source = u ∧ e.target = v := by
  simp [hasEdge]

theorem edge_endpoints : Components.Edge g.endpoints u v ↔ g.hasEdge u v = true := by
  rw [hasEdge_iff]
  simp [Components.Edge, endpoints]

end DirectedLabelledGraph

end Query

end Hypertrie
