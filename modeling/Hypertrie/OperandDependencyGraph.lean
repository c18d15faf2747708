import Hypertrie.Library.Worklist
import Hypertrie.HashJoin

/-! The dependency graph of the operands of a query. A sub-graph keeps the vertices of
the root graph it has, in the order in which they were added; vertices are positions of
operands and are kept in one byte each wherever a list of them is stored. -/

namespace Hypertrie

/-- `Vertex`. -/
abbrev Vertex := BitVec 8

/-- An edge; those that are optional do not make the target depend on the source. -/
structure DependencyEdge where
  source : Nat
  target : Nat
  isOpt : Bool
  deriving DecidableEq

/-- `boost::subgraph`: a root graph or some of its vertices, all in the numbers of the root. -/
inductive Subgraph where
  | root (numVertices : Nat) (edges : List DependencyEdge)
  | sub (parent : Subgraph) (globalVertices : List Nat)
  deriving DecidableEq

namespace Subgraph

def rootEdges : Subgraph → List DependencyEdge
  | root _ edges => edges
  | sub parent _ => parent.rootEdges

def globalVertices : Subgraph → List Nat
  | root numVertices _ => List.range numVertices
  | sub _ globalVertices => globalVertices

def numVertices (g : Subgraph) : Nat := g.globalVertices.length

def localToGlobal (g : Subgraph) (v : Nat) : Nat := g.globalVertices.getD v 0

def globalToLocal (g : Subgraph) (u : Nat) : Nat := g.globalVertices.idxOf u

/-- The edges of the root between vertices of the graph, in its own numbers. -/
def edges (g : Subgraph) : List DependencyEdge :=
  (g.rootEdges.filter (fun e => e.source ∈ g.globalVertices ∧ e.target ∈ g.globalVertices)).map
    (fun e => ⟨g.globalToLocal e.source, g.globalToLocal e.target, e.isOpt⟩)

/-- `boost::out_edges`, which needs a vertex of the graph. -/
def outEdges (g : Subgraph) (v : Nat) : Option (List DependencyEdge) :=
  if v < g.numVertices then some (g.edges.filter (fun e => e.source = v)) else none

/-- Edges are between vertices of the root, and a sub-graph has vertices of its parent. -/
inductive Wf : Subgraph → Prop where
  | root {n edges} : (∀ e ∈ edges, e.source < n ∧ e.target < n) → Wf (.root n edges)
  | sub {parent vs} : Wf parent → vs.Nodup → (∀ u ∈ vs, u ∈ parent.globalVertices) →
      Wf (.sub parent vs)

/-- The target depends on the source. -/
def Depends (g : Subgraph) (u v : Nat) : Prop :=
  ∃ e ∈ g.edges, e.source = u ∧ e.target = v ∧ e.isOpt = false

end Subgraph

/-- The graph with what it keeps of earlier calls: the positions of its operands in its parent,
and pruned graphs by the hashes of the operands they were pruned of. -/
structure OperandDependencyGraph where
  odg : Subgraph
  originalPositions : List Vertex
  prunedSubgraphs : List (Nat × Subgraph)

namespace OperandDependencyGraph

def ofSubgraph (odg : Subgraph) : OperandDependencyGraph := ⟨odg, [], []⟩

/-- The operands that depend directly on the operand. -/
def dependents (odg : Subgraph) (operand : Vertex) : Option (List Vertex) :=
  (odg.outEdges operand.toNat).map
    (fun es => (es.filter (fun e => !e.isOpt)).map (fun e => BitVec.ofNat 8 e.target))

/-- The loop over the operands to check, with a round for each entry and each edge. -/
def pruned (odg : Subgraph) (emptyOperands : List Vertex) : Option (Finset Vertex) :=
  Worklist.run (dependents odg) (emptyOperands.length + odg.edges.length + 1) emptyOperands ∅

/-- The sub-graph of the vertices that are not pruned. -/
def without (odg : Subgraph) (pruned : Finset Vertex) : Subgraph :=
  .sub odg (((List.range odg.numVertices).filter (fun v => BitVec.ofNat 8 v ∉ pruned)).map
    odg.localToGlobal)

/-- `remove_vertices`, which compares positions without cutting them off. -/
def removeVertices (g : OperandDependencyGraph) (vertices : List Vertex) : OperandDependencyGraph :=
  .ofSubgraph (.sub g.odg (((List.range g.odg.numVertices).filter
    (fun v => v ∉ vertices.map BitVec.toNat)).map g.odg.localToGlobal))

/-- `prune_graph`. What a kept graph has computed for itself meanwhile is left out. -/
def pruneGraph (hash : List Vertex → Nat) (g : OperandDependencyGraph)
    (emptyOperands : List Vertex) : Option (OperandDependencyGraph × OperandDependencyGraph) :=
  match g.prunedSubgraphs.lookup (hash emptyOperands) with
  | some sub => some (.ofSubgraph sub, g)
  | none => do
    let pruned ← pruned g.odg emptyOperands
    let sub := without g.odg pruned
    some (.ofSubgraph sub, { g with prunedSubgraphs := (hash emptyOperands, sub) :: g.prunedSubgraphs })

/-- A loop that counts up to the size with one byte and collects some positions. -/
def collectLoop (size : Nat) (collected : Nat → Bool) : Nat → Vertex → List Vertex →
    Option (List Vertex)
  | 0, _, _ => none
  | fuel + 1, i, positions =>
    if i.toNat < size then
      collectLoop size collected fuel (i + 1)
        (if collected i.toNat then positions ++ [i] else positions)
    else some positions

/-- `operands_original_positions`; the rounds of its loop are bounded by the fuel. -/
def operandsOriginalPositions (g : OperandDependencyGraph) (fuel : Nat) : Option (List Vertex) :=
  if g.originalPositions ≠ [] then some g.originalPositions
  else match g.odg with
    | .sub parent vs => some (vs.map (fun u => BitVec.ofNat 8 (parent.globalToLocal u)))
    | .root numVertices _ => collectLoop numVertices (fun _ => true) fuel 0 []

end OperandDependencyGraph

namespace Subgraph

variable {g : Subgraph} {u v : Nat}

theorem Wf.nodup (h : g.Wf) : g.globalVertices.Nodup := by
  cases h with
  | root => exact List.nodup_range
  | sub _ hnodup _ => exact hnodup

theorem Wf.globalToLocal_localToGlobal (h : g.Wf) (hv : v < g.numVertices) :
    g.globalToLocal (g.localToGlobal v) = v := by
  rw [localToGlobal, List.getD_eq_getElem _ _ hv]
  exact h.nodup.idxOf_getElem v hv

theorem globalToLocal_root {n : Nat} {edges : List DependencyEdge} (hu : u < n) :
    (Subgraph.root n edges).globalToLocal u = u := by
  have hlt : u < (List.range n).length := by simpa using hu
  have hidx := List.nodup_range.idxOf_getElem u hlt
  rwa [List.getElem_range] at hidx

theorem lt_of_mem_edges {e : DependencyEdge} (he : e ∈ g.edges) :
    e.source < g.numVertices ∧ e.target < g.numVertices := by
  obtain ⟨e', he', rfl⟩ := List.mem_map.mp he
  obtain ⟨hs, ht⟩ := of_decide_eq_true (List.mem_filter.mp he').2
  exact ⟨List.idxOf_lt_length_of_mem hs, List.idxOf_lt_length_of_mem ht⟩

theorem map_localToGlobal_range (g : Subgraph) :
    (List.range g.numVertices).map g.localToGlobal = g.globalVertices := by
  apply List.ext_getElem
  · rw [List.length_map, List.length_range, numVertices]
  · intro i hi hi'
    rw [List.getElem_map, List.getElem_range, localToGlobal, List.getD_eq_getElem _ _ hi']

end Subgraph

namespace OperandDependencyGraph

section Prune

variable {odg : Subgraph} {a b : Vertex} {u v : Nat} {emptyOperands : List Vertex}

theorem edge_dependents : Worklist.Edge (dependents odg) a b ↔
    ∃ e ∈ odg.edges, e.source = a.toNat ∧ e.isOpt = false ∧ BitVec.ofNat 8 e.target = b := by
  rw [Worklist.Edge, dependents, Subgraph.outEdges]
  by_cases ha : a.toNat < odg.numVertices
  · rw [if_pos ha]
    simp only [Option.map_some, Option.some.injEq, exists_eq_left', List.mem_map, List.mem_filter,
      decide_eq_true_eq, Bool.not_eq_true', and_assoc]
  · rw [if_neg ha]
    constructor
    · rintro ⟨_, h, -⟩
      cases h
    · rintro ⟨e, he, hs, -⟩
      exact absurd (hs ▸ (Subgraph.lt_of_mem_edges he).1) ha

/-- The vertices that exist. -/
def vertices (odg : Subgraph) : Finset Vertex :=
  (Finset.range odg.numVertices).image (BitVec.ofNat 8)

theorem mem_vertices : a ∈ vertices odg ↔ a.toNat < odg.numVertices := by
  rw [vertices, Finset.mem_image]
  constructor
  · rintro ⟨v, hv, rfl⟩
    rw [BitVec.toNat_ofNat]
    exact (Nat.mod_le _ _).trans_lt (Finset.mem_range.mp hv)
  · intro ha
    exact ⟨a.toNat, Finset.mem_range.mpr ha, BitVec.ofNat_toNat _ _⟩

theorem closed_vertices (odg : Subgraph) : Worklist.Closed (dependents odg) (vertices odg) := by
  constructor
  intro a ha
  refine ⟨_, by rw [dependents, Subgraph.outEdges, if_pos (mem_vertices.mp ha)]; rfl, ?_⟩
  intro b hb
  obtain ⟨e, he, rfl⟩ := List.mem_map.mp hb
  have hmem := (List.mem_filter.mp (List.mem_filter.mp he).1).1
  rw [mem_vertices, BitVec.toNat_ofNat]
  exact (Nat.mod_le _ _).trans_lt (Subgraph.lt_of_mem_edges hmem).2

/-- Each edge leaves one vertex. -/
theorem sum_filter_source_le (s : Finset Vertex) (es : List DependencyEdge) :
    ∑ a ∈ s, (es.filter (fun e => e.source = a.toNat)).length ≤ es.length := by
  induction es with
  | nil => simp
  | cons e es ih =>
    have hone : ∑ a ∈ s, (if e.source = a.toNat then 1 else 0) ≤ 1 := by
      rw [← Finset.card_filter]
      apply Finset.card_le_one.mpr
      intro a ha b hb
      apply BitVec.eq_of_toNat_eq
      rw [← (Finset.mem_filter.mp ha).2, ← (Finset.mem_filter.mp hb).2]
    have hlength (a : Vertex) : ((e :: es).filter (fun e => e.source = a.toNat)).length =
        (if e.source = a.toNat then 1 else 0) +
          (es.filter (fun e => e.source = a.toNat)).length := by
      by_cases ha : e.source = a.toNat
      · simp [ha, Nat.add_comm]
      · simp [ha]
    rw [Finset.sum_congr rfl fun a _ => hlength a, Finset.sum_add_distrib, List.length_cons]
    omega

theorem remaining_le (odg : Subgraph) :
    Worklist.remaining (dependents odg) (vertices odg) ∅ ≤ odg.edges.length := by
  refine le_trans (Finset.sum_le_sum fun a ha => ?_) (sum_filter_source_le (vertices odg \ ∅) _)
  have hlt := mem_vertices.mp (Finset.mem_sdiff.mp ha).1
  rw [dependents, Subgraph.outEdges, if_pos hlt, Option.map_some, Option.getD_some, List.length_map]
  exact List.length_filter_le ..

/-- The loop ends; it has pruned what can be reached from an entry of the list. -/
theorem pruned_spec (h : ∀ a ∈ emptyOperands, a.toNat < odg.numVertices) :
    Ensures (pruned odg emptyOperands) (fun pruned => ∀ b, b ∈ pruned ↔
      ∃ a ∈ emptyOperands, Relation.ReflTransGen (Worklist.Edge (dependents odg)) a b) := by
  apply Worklist.run_spec (closed_vertices odg) (Worklist.Searching.initial _ _)
  · exact fun a ha => mem_vertices.mpr (h a ha)
  · have := remaining_le odg
    omega

/-- Reaching a vertex through bytes is reaching it, if all vertices fit into a byte. -/
theorem reaches_iff (hn : odg.numVertices ≤ posTypeCount) (hv : v < odg.numVertices) :
    Relation.ReflTransGen (Worklist.Edge (dependents odg)) a (BitVec.ofNat 8 v) ↔
      Relation.ReflTransGen odg.Depends a.toNat v := by
  have hbyte {u : Nat} (hu : u < odg.numVertices) : (BitVec.ofNat 8 u).toNat = u := by
    rw [BitVec.toNat_ofNat]
    exact Nat.mod_eq_of_lt (hu.trans_le hn)
  constructor
  · intro h
    have hlift := h.lift BitVec.toNat (p := odg.Depends) (by
      intro a b hab
      obtain ⟨e, he, hs, hopt, rfl⟩ := edge_dependents.mp hab
      exact ⟨e, he, hs, (hbyte (Subgraph.lt_of_mem_edges he).2).symm, hopt⟩)
    exact hbyte hv ▸ hlift
  · intro h
    have hlift := h.lift (BitVec.ofNat 8) (p := Worklist.Edge (dependents odg)) (by
      rintro u v ⟨e, he, rfl, rfl, hopt⟩
      exact edge_dependents.mpr ⟨e, he, (hbyte (Subgraph.lt_of_mem_edges he).1).symm, hopt, rfl⟩)
    have ha : BitVec.ofNat 8 a.toNat = a := BitVec.ofNat_toNat _ _
    exact ha ▸ hlift

/-- The operands of the list and those that depend on them are pruned. -/
theorem mem_pruned_iff (hn : odg.numVertices ≤ posTypeCount) {pruned : Finset Vertex}
    (hpruned : ∀ b, b ∈ pruned ↔
      ∃ a ∈ emptyOperands, Relation.ReflTransGen (Worklist.Edge (dependents odg)) a b)
    (hv : v < odg.numVertices) : BitVec.ofNat 8 v ∈ pruned ↔
      ∃ a ∈ emptyOperands, Relation.ReflTransGen odg.Depends a.toNat v := by
  rw [hpruned]
  apply exists_congr
  intro a
  rw [reaches_iff hn hv]

end Prune

section Without

variable {odg : Subgraph} {pruned : Finset Vertex} {v : Nat}

theorem mem_without (h : odg.Wf) (hv : v < odg.numVertices) :
    odg.localToGlobal v ∈ (without odg pruned).globalVertices ↔ BitVec.ofNat 8 v ∉ pruned := by
  constructor
  · intro hmem
    obtain ⟨w, hw, heq⟩ := List.mem_map.mp hmem
    obtain ⟨hw, hnot⟩ := List.mem_filter.mp hw
    have hlocal := h.globalToLocal_localToGlobal (List.mem_range.mp hw)
    rw [heq, h.globalToLocal_localToGlobal hv] at hlocal
    exact hlocal ▸ of_decide_eq_true hnot
  · intro hnot
    apply List.mem_map_of_mem
    exact List.mem_filter.mpr ⟨List.mem_range.mpr hv, decide_eq_true hnot⟩

theorem nodup_without (h : odg.Wf) (pruned : Finset Vertex) :
    (without odg pruned).globalVertices.Nodup := by
  apply List.Nodup.map_on
  · intro v hv w hw heq
    have hv := List.mem_range.mp (List.mem_filter.mp hv).1
    have hw := List.mem_range.mp (List.mem_filter.mp hw).1
    rw [← h.globalToLocal_localToGlobal hv, heq, h.globalToLocal_localToGlobal hw]
  · exact List.nodup_range.filter _

/-- The original position of a vertex is the number it has in the parent. -/
theorem positions_filter (h : odg.Wf) (isKept : Nat → Bool) (fuel : Nat) :
    (ofSubgraph (.sub odg (((List.range odg.numVertices).filter isKept).map odg.localToGlobal))
      ).operandsOriginalPositions fuel =
        some (((List.range odg.numVertices).filter isKept).map (BitVec.ofNat 8)) := by
  rw [operandsOriginalPositions, ofSubgraph, if_neg (not_not_intro rfl)]
  show some (List.map _ (List.map _ _)) = _
  rw [List.map_map, Option.some.injEq]
  apply List.map_congr_left
  intro v hv
  have hlt := List.mem_range.mp (List.mem_filter.mp hv).1
  rw [Function.comp_apply, h.globalToLocal_localToGlobal hlt]

theorem without_empty (odg : Subgraph) : (without odg ∅).globalVertices = odg.globalVertices := by
  rw [without, Subgraph.globalVertices]
  simp [Subgraph.map_localToGlobal_range]

end Without

/-- Exactly the operands that do not depend on one of the list are left, at positions that are
known, and they are left when the graph is pruned again. -/
structure Pruned (hash : List Vertex → Nat) (fuel : Nat) (odg : Subgraph)
    (emptyOperands : List Vertex) (sub : OperandDependencyGraph) : Prop where
  kept : ∀ v < odg.numVertices, odg.localToGlobal v ∈ sub.odg.globalVertices ↔
    ¬∃ a ∈ emptyOperands, Relation.ReflTransGen odg.Depends a.toNat v
  only : ∀ u ∈ sub.odg.globalVertices, ∃ v < odg.numVertices, odg.localToGlobal v = u
  nodup : sub.odg.globalVertices.Nodup
  positions : Ensures (sub.operandsOriginalPositions fuel) (fun positions =>
    (∀ pos ∈ positions, pos.toNat < odg.numVertices) ∧
      positions.map (fun pos => odg.localToGlobal pos.toNat) =
        (List.range sub.odg.numVertices).map sub.odg.localToGlobal)
  again : Ensures (sub.pruneGraph hash []) (fun res =>
    res.1.odg.globalVertices = sub.odg.globalVertices)

theorem pruned_without {odg : Subgraph} (h : odg.Wf) (hn : odg.numVertices ≤ posTypeCount)
    {emptyOperands : List Vertex} {pruned : Finset Vertex} (hpruned : ∀ b, b ∈ pruned ↔
      ∃ a ∈ emptyOperands, Relation.ReflTransGen (Worklist.Edge (dependents odg)) a b)
    (hash : List Vertex → Nat) (fuel : Nat) :
    Pruned hash fuel odg emptyOperands (ofSubgraph (without odg pruned)) := by
  constructor
  case kept =>
    intro v hv
    rw [ofSubgraph, mem_without h hv, mem_pruned_iff hn hpruned hv]
  case only =>
    intro u hu
    obtain ⟨v, hv, rfl⟩ := List.mem_map.mp hu
    exact ⟨v, List.mem_range.mp (List.mem_filter.mp hv).1, rfl⟩
  case nodup => exact nodup_without h pruned
  case positions =>
    rw [without, positions_filter h]
    have hbyte {v : Nat} (hv : v ∈ (List.range odg.numVertices).filter
        (fun v => BitVec.ofNat 8 v ∉ pruned)) :
        v < odg.numVertices ∧ (BitVec.ofNat 8 v).toNat = v := by
      have hlt := List.mem_range.mp (List.mem_filter.mp hv).1
      rw [BitVec.toNat_ofNat]
      exact ⟨hlt, Nat.mod_eq_of_lt (hlt.trans_le hn)⟩
    apply Ensures.pure
    constructor
    · intro pos hpos
      obtain ⟨v, hv, rfl⟩ := List.mem_map.mp hpos
      rw [(hbyte hv).2]
      exact (hbyte hv).1
    · rw [Subgraph.map_localToGlobal_range, List.map_map]
      apply List.map_congr_left
      intro v hv
      rw [Function.comp_apply, (hbyte hv).2]
  case again =>
    have hprune : (ofSubgraph (without odg pruned)).pruneGraph hash [] =
        some (.ofSubgraph (without (without odg pruned) ∅), _) := rfl
    rw [hprune]
    exact Ensures.pure (without_empty _)

section Calls

variable {hash : List Vertex → Nat} {g g' : OperandDependencyGraph} {l : List Vertex}
variable {calls : List (List Vertex)}

/-- Different lists have different hashes. -/
def HashesApart (hash : List Vertex → Nat) (lists : List (List Vertex)) : Prop :=
  ∀ l ∈ lists, ∀ l' ∈ lists, hash l = hash l' → l = l'

/-- What is kept are the graphs pruned of lists of earlier calls. -/
def MemoOk (hash : List Vertex → Nat) (calls : List (List Vertex)) (g : OperandDependencyGraph) :
    Prop :=
  ∀ p ∈ g.prunedSubgraphs, ∃ l ∈ calls, hash l = p.1 ∧ ∃ s, pruned g.odg l = some s ∧
    p.2 = without g.odg s

/-- A call gives the pruned graph, kept or new. -/
theorem pruneGraph_spec (hmemo : MemoOk hash calls g) (hvalid : ∀ a ∈ l, a.toNat < g.odg.numVertices)
    (hhash : HashesApart hash (l :: calls)) : Ensures (pruneGraph hash g l) (fun res =>
      (∃ s, pruned g.odg l = some s ∧ res.1 = .ofSubgraph (without g.odg s)) ∧
      res.2.odg = g.odg ∧ MemoOk hash (l :: calls) res.2) := by
  have hkeep : MemoOk hash (l :: calls) g := by
    intro p hp
    obtain ⟨l', hl', h⟩ := hmemo p hp
    exact ⟨l', List.mem_cons_of_mem l hl', h⟩
  rw [pruneGraph]
  cases hlookup : g.prunedSubgraphs.lookup (hash l) with
  | some sub =>
    obtain ⟨before, after, heq, -⟩ := List.lookup_eq_some_iff.mp hlookup
    obtain ⟨l', hl', hsame, s, hs, hsub⟩ := hmemo (hash l, sub) (by simp [heq])
    obtain rfl := hhash l' (List.mem_cons_of_mem l hl') l List.mem_cons_self hsame
    exact Ensures.pure ⟨⟨s, hs, congrArg ofSubgraph hsub⟩, rfl, hkeep⟩
  | none =>
    obtain ⟨s, hs, -⟩ := pruned_spec hvalid
    simp only [hs, Option.bind_eq_bind, Option.bind_some]
    refine Ensures.pure ⟨⟨s, rfl, rfl⟩, rfl, ?_⟩
    intro p hp
    rcases List.mem_cons.mp hp with rfl | hp
    · exact ⟨l, List.mem_cons_self, rfl, s, hs, rfl⟩
    · exact hkeep p hp

/-- Calls one after another. -/
def pruneAll (hash : List Vertex → Nat) (g : OperandDependencyGraph) (calls : List (List Vertex)) :
    Option OperandDependencyGraph :=
  calls.foldlM (fun g l => (pruneGraph hash g l).map Prod.snd) g

theorem HashesApart.mono {lists lists' : List (List Vertex)} (h : HashesApart hash lists)
    (hsub : lists' ⊆ lists) : HashesApart hash lists' :=
  fun l hl l' hl' => h l (hsub hl) l' (hsub hl')

theorem pruneAll_spec {earlier : List (List Vertex)} (hmemo : MemoOk hash earlier g)
    (hvalid : ∀ l ∈ calls, ∀ a ∈ l, a.toNat < g.odg.numVertices)
    (hhash : HashesApart hash (calls ++ earlier)) : Ensures (pruneAll hash g calls) (fun g' =>
      g'.odg = g.odg ∧ MemoOk hash (calls ++ earlier) g') := by
  induction calls generalizing g earlier with
  | nil => exact Ensures.pure ⟨rfl, hmemo⟩
  | cons l calls ih =>
    have hl : HashesApart hash (l :: earlier) := hhash.mono (by
      intro x hx
      rcases List.mem_cons.mp hx with rfl | hx
      · exact List.mem_cons_self
      · exact List.mem_cons_of_mem l (List.mem_append_right _ hx))
    obtain ⟨res, hres, -, hodg, hmemo'⟩ := pruneGraph_spec hmemo (hvalid l List.mem_cons_self) hl
    have hperm : (calls ++ l :: earlier).Perm (l :: calls ++ earlier) := List.perm_middle
    rw [pruneAll, List.foldlM_cons, hres]
    refine (ih hmemo' (fun l' hl' => hodg ▸ hvalid l' (List.mem_cons_of_mem l hl'))
      (hhash.mono hperm.subset)).mono ?_
    rintro g' ⟨hodg', hmemo''⟩
    refine ⟨hodg'.trans hodg, fun p hp => ?_⟩
    obtain ⟨l', hl', h⟩ := hmemo'' p hp
    exact ⟨l', hperm.subset hl', h⟩

end Calls

/-- After any calls, pruning is exact and does not depend on the order of the list. -/
def PrunesExactly (hash : List Vertex → Nat) (fuel : Nat) (g : OperandDependencyGraph)
    (calls : List (List Vertex)) (l l' : List Vertex) : Prop :=
  Ensures (pruneAll hash g calls) (fun g' =>
    Ensures (pruneGraph hash g' l) (fun res => Pruned hash fuel g.odg l res.1 ∧
      Ensures (pruneGraph hash g' l') (fun res' => res'.1 = res.1)))

/-- Graphs whose vertices fit into a byte are pruned of exactly the operands that depend on one of
the list. -/
theorem pruneGraph_exact {hash : List Vertex → Nat} {g : OperandDependencyGraph} (hg : g.odg.Wf)
    (hn : g.odg.numVertices ≤ posTypeCount) (hnew : g.prunedSubgraphs = [])
    {calls : List (List Vertex)} {l l' : List Vertex} (hperm : l'.Perm l)
    (hvalid : ∀ l'' ∈ l :: l' :: calls, ∀ a ∈ l'', a.toNat < g.odg.numVertices)
    (hhash : HashesApart hash (l :: l' :: calls)) (fuel : Nat) :
    PrunesExactly hash fuel g calls l l' := by
  have hmemo : MemoOk hash [] g := by
    intro p hp
    rw [hnew] at hp
    cases hp
  have hcalls : HashesApart hash (calls ++ []) := hhash.mono (by simp)
  refine (pruneAll_spec hmemo (fun l'' hl'' => hvalid l'' (by simp [hl''])) hcalls).mono ?_
  rintro g' ⟨hodg, hmemo'⟩
  rw [List.append_nil] at hmemo'
  have hvalid' (l'' : List Vertex) (hl'' : l'' ∈ l :: l' :: calls) :
      ∀ a ∈ l'', a.toNat < g'.odg.numVertices := hodg ▸ hvalid l'' hl''
  refine (pruneGraph_spec hmemo' (hvalid' l (by simp)) (hhash.mono (by simp))).mono ?_
  rintro res ⟨⟨s, hs, hres⟩, -, -⟩
  obtain ⟨s₀, hs₀, hmem⟩ := pruned_spec (hvalid' l (by simp))
  obtain rfl : s₀ = s := Option.some.inj (hs₀.symm.trans hs)
  constructor
  · rw [hres, ← hodg]
    exact pruned_without (hodg ▸ hg) (hodg ▸ hn) hmem hash fuel
  · refine (pruneGraph_spec hmemo' (hvalid' l' (by simp)) (hhash.mono (by simp))).mono ?_
    rintro res' ⟨⟨s', hs', hres'⟩, -, -⟩
    obtain ⟨s₁, hs₁, hmem'⟩ := pruned_spec (hvalid' l' (by simp))
    obtain rfl : s₁ = s' := Option.some.inj (hs₁.symm.trans hs')
    have hsame : s₁ = s₀ := by
      ext b
      rw [hmem, hmem']
      apply exists_congr
      intro a
      rw [hperm.mem_iff]
    rw [hres, hres', hsame]

/-- A cycle, an optional edge and an edge from outside of the sub-graph. -/
def cyclicGraph : Subgraph :=
  .sub (.root 5 [⟨1, 2, false⟩, ⟨2, 1, false⟩, ⟨2, 3, true⟩, ⟨0, 4, false⟩, ⟨3, 4, false⟩])
    [1, 2, 3, 4]

/-- The entries as the digits of a number. -/
def digitHashOf (l : List Vertex) : Nat := l.foldr (fun a h => h * 257 + a.toNat + 1) 0

theorem pruneGraph_exact_five :
    PrunesExactly digitHashOf 0 (ofSubgraph cyclicGraph) [[2]] [0, 1] [1, 0] := by
  have hg : cyclicGraph.Wf := .sub (.root (by decide)) (by decide) (by decide)
  have hhash : HashesApart digitHashOf [[0, 1], [1, 0], [2]] := by
    rw [HashesApart]
    decide
  exact pruneGraph_exact hg (by decide) rfl (by decide) (by decide) hhash 0

theorem eq_of_reaches_root {n u v : Nat}
    (h : Relation.ReflTransGen (Subgraph.Depends (.root n [])) u v) : u = v := by
  induction h with
  | refl => rfl
  | tail _ hstep _ =>
    obtain ⟨e, he, -⟩ := hstep
    simp [Subgraph.edges, Subgraph.rootEdges] at he

/-- The operand 256 is taken for the operand 0. -/
theorem pruneGraph_257_wrong : (Subgraph.root 257 []).Wf ∧
    ¬PrunesExactly digitHashOf 0 (ofSubgraph (.root 257 [])) [] [0] [0] := by
  have hg : (Subgraph.root 257 []).Wf := .root (by simp)
  have hsize : (Subgraph.root 257 []).numVertices = 257 := List.length_range
  refine ⟨hg, ?_⟩
  rintro ⟨g', hg', res, hres, hpruned, -⟩
  obtain rfl : ofSubgraph (.root 257 []) = g' := Option.some.inj hg'
  have hvalid : ∀ a ∈ ([0] : List Vertex), a.toNat < (Subgraph.root 257 []).numVertices := by
    rw [hsize]
    decide
  have hmemo : MemoOk digitHashOf [] (ofSubgraph (.root 257 [])) := fun p hp => by cases hp
  have hhash : HashesApart digitHashOf [[0]] := by
    rw [HashesApart]
    decide
  obtain ⟨res', hres', ⟨s, hs, hsub⟩, -⟩ := pruneGraph_spec hmemo hvalid hhash
  obtain rfl : res' = res := Option.some.inj (hres'.symm.trans hres)
  obtain ⟨s', hs', hmem⟩ := pruned_spec hvalid
  obtain rfl : s' = s := Option.some.inj (hs'.symm.trans hs)
  have hlt : 256 < (Subgraph.root 257 []).numVertices := by
    rw [hsize]
    decide
  have hzero : (BitVec.ofNat 8 256) ∈ s' := (hmem _).mpr ⟨0, List.mem_singleton_self 0, .refl⟩
  have hkept := (hpruned.kept 256 hlt).mpr (by
    rintro ⟨a, ha, hreach⟩
    obtain rfl := List.mem_singleton.mp ha
    cases eq_of_reaches_root hreach)
  rw [hsub] at hkept
  exact (mem_without hg hlt).mp hkept hzero

end OperandDependencyGraph

end Hypertrie
