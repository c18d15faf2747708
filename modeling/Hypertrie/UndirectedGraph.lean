import Hypertrie.Library.Ensures

/-! Undirected graphs and their connected components. Sets of nodes are hash
sets, of which only `begin` depends on the order of iteration. -/

namespace Hypertrie

variable {T : Type} [DecidableEq T]

/-- `*set.begin()` of a hash set. -/
structure SetBegin (T : Type) where
  begin : Finset T → T
  mem : ∀ s, s.Nonempty → begin s ∈ s

structure UndirectedGraph (T : Type) where
  nodes : Finset T
  edges : T → Finset T

namespace UndirectedGraph

def empty : UndirectedGraph T := ⟨∅, fun _ => ∅⟩

def addEdge (g : UndirectedGraph T) (a b : T) : UndirectedGraph T :=
  let edges := Function.update g.edges a (insert b (g.edges a))
  ⟨insert b (insert a g.nodes), Function.update edges b (insert a (edges b))⟩

def addCompleteGraph (g : UndirectedGraph T) (newNodes : List T) : UndirectedGraph T :=
  newNodes.dedup.foldl (fun g a => newNodes.dedup.foldl (fun g b => g.addEdge a b) g) g

/-- The sets of the breadth-first search. -/
structure Search (T : Type) where
  unfinishedNodes : Finset T
  openNodes : Finset T
  connectedComponent : Finset T

/-- One open node is closed, its unfinished neighbours are opened. -/
def visit (g : UndirectedGraph T) (node : T) (s : Search T) : Search T :=
  let adjacent := g.edges node ∩ s.unfinishedNodes
  ⟨s.unfinishedNodes \ adjacent, s.openNodes.erase node ∪ adjacent, s.connectedComponent ∪ adjacent⟩

/-- The inner loop, with at most so many rounds. -/
def explore (sets : SetBegin T) (g : UndirectedGraph T) : Nat → Search T → Option (Search T)
  | 0, _ => none
  | fuel + 1, s =>
    if s.openNodes = ∅ then some s else explore sets g fuel (g.visit (sets.begin s.openNodes) s)

def components (sets : SetBegin T) (g : UndirectedGraph T) : Nat → Finset T → Option (List (Finset T))
  | 0, _ => none
  | fuel + 1, unfinished =>
    if unfinished = ∅ then some []
    else do
      let first := sets.begin unfinished
      let s ← explore sets g (unfinished.card + 1) ⟨unfinished.erase first, {first}, {first}⟩
      let rest ← components sets g fuel s.unfinishedNodes
      some (s.connectedComponent :: rest)

def getConnectedComponents (sets : SetBegin T) (g : UndirectedGraph T) : Option (List (Finset T)) :=
  components sets g (g.nodes.card + 1) g.nodes

/-- Edges go both ways between nodes of the graph. -/
structure Wf (g : UndirectedGraph T) : Prop where
  symm : ∀ a b, b ∈ g.edges a → a ∈ g.edges b
  subset : ∀ a, g.edges a ⊆ g.nodes

omit [DecidableEq T] in
@[ext]
theorem ext {g g' : UndirectedGraph T} (hn : g.nodes = g'.nodes) (he : g.edges = g'.edges) : g = g' := by
  cases g
  cases g'
  exact congr (congrArg mk hn) he

omit [DecidableEq T] in
theorem wf_empty : (empty : UndirectedGraph T).Wf :=
  ⟨fun _ _ h => absurd h (Finset.notMem_empty _), fun _ _ h => h⟩

theorem mem_addEdge {g : UndirectedGraph T} {a b c d : T} :
    d ∈ (g.addEdge a b).edges c ↔ d ∈ g.edges c ∨ (c = a ∧ d = b) ∨ (c = b ∧ d = a) := by
  simp only [addEdge, Function.update_apply]
  grind

theorem Wf.addEdge {g : UndirectedGraph T} (h : g.Wf) (a b : T) : (g.addEdge a b).Wf := by
  refine ⟨fun c d hd => ?_, fun c d hd => ?_⟩
  · rw [mem_addEdge] at hd ⊢
    rcases hd with hd | hd | hd
    · exact .inl (h.symm c d hd)
    · exact .inr (.inr hd.symm)
    · exact .inr (.inl hd.symm)
  · rcases mem_addEdge.mp hd with hd | ⟨-, rfl⟩ | ⟨-, rfl⟩
    · exact Finset.mem_insert_of_mem (Finset.mem_insert_of_mem (h.subset c hd))
    · exact Finset.mem_insert_self d _
    · exact Finset.mem_insert_of_mem (Finset.mem_insert_self d _)

theorem nodes_addEdge (g : UndirectedGraph T) (a b : T) :
    (g.addEdge a b).nodes = insert b (insert a g.nodes) := rfl

section CompleteGraph

variable {g : UndirectedGraph T} {l : List T}

/-- The edges of one node to the nodes of the list. -/
theorem addEdges_spec (h : g.Wf) (a : T) (l : List T) :
    (l.foldl (fun g b => g.addEdge a b) g).Wf ∧
    (∀ c d, d ∈ (l.foldl (fun g b => g.addEdge a b) g).edges c ↔
      d ∈ g.edges c ∨ (c = a ∧ d ∈ l) ∨ (c ∈ l ∧ d = a)) ∧
    (∀ c, c ∈ (l.foldl (fun g b => g.addEdge a b) g).nodes ↔
      c ∈ g.nodes ∨ (l ≠ [] ∧ c = a) ∨ c ∈ l) := by
  induction l generalizing g with
  | nil => simp [h]
  | cons b l ih =>
    obtain ⟨hwf, hedge, hnode⟩ := ih (h.addEdge a b)
    refine ⟨hwf, fun c d => ?_, fun c => ?_⟩
    · rw [List.foldl_cons, hedge, mem_addEdge]
      grind
    · rw [List.foldl_cons, hnode, nodes_addEdge]
      grind

theorem addCompleteGraph_spec (h : g.Wf) (l : List T) : (g.addCompleteGraph l).Wf ∧
    (∀ c d, d ∈ (g.addCompleteGraph l).edges c ↔ d ∈ g.edges c ∨ (c ∈ l ∧ d ∈ l)) ∧
    (∀ c, c ∈ (g.addCompleteGraph l).nodes ↔ c ∈ g.nodes ∨ c ∈ l) := by
  have hrows (rows : List T) (hrows : rows ⊆ l) {g : UndirectedGraph T} (h : g.Wf) :
      (rows.foldl (fun g a => l.dedup.foldl (fun g b => g.addEdge a b) g) g).Wf ∧
      (∀ c d, d ∈ (rows.foldl (fun g a => l.dedup.foldl (fun g b => g.addEdge a b) g) g).edges c ↔
        d ∈ g.edges c ∨ (c ∈ rows ∧ d ∈ l) ∨ (c ∈ l ∧ d ∈ rows)) ∧
      (∀ c, c ∈ (rows.foldl (fun g a => l.dedup.foldl (fun g b => g.addEdge a b) g) g).nodes ↔
        c ∈ g.nodes ∨ (rows ≠ [] ∧ c ∈ l)) := by
    induction rows generalizing g with
    | nil => simp [h]
    | cons a rows ih =>
      obtain ⟨hwf, hedge, hnode⟩ := addEdges_spec h a l.dedup
      obtain ⟨hwf', hedge', hnode'⟩ := ih (fun x hx => hrows (List.mem_cons_of_mem a hx)) hwf
      have ha : a ∈ l := hrows List.mem_cons_self
      refine ⟨hwf', fun c d => ?_, fun c => ?_⟩
      · rw [List.foldl_cons, hedge', hedge]
        simp only [List.mem_dedup, List.mem_cons]
        grind
      · rw [List.foldl_cons, hnode', hnode]
        simp only [List.mem_dedup, ne_eq]
        grind
  obtain ⟨hwf, hedge, hnode⟩ := hrows l.dedup (List.dedup_subset l) h
  refine ⟨hwf, fun c d => ?_, fun c => ?_⟩
  · rw [addCompleteGraph, hedge]
    simp only [List.mem_dedup]
    grind
  · rw [addCompleteGraph, hnode]
    refine or_congr_right (and_iff_right_of_imp fun hc => ?_)
    exact List.ne_nil_of_mem (List.mem_dedup.mpr hc)

end CompleteGraph

section Components

variable {g : UndirectedGraph T} {W : Finset T} {s : Search T}

/-- The search within `W`: what is closed has all its neighbours in the component. -/
structure Searching (g : UndirectedGraph T) (W : Finset T) (s : Search T) : Prop where
  union : s.connectedComponent ∪ s.unfinishedNodes = W
  disjoint : Disjoint s.connectedComponent s.unfinishedNodes
  openNodes : s.openNodes ⊆ s.connectedComponent
  closed : ∀ a ∈ s.connectedComponent, a ∉ s.openNodes → g.edges a ⊆ s.connectedComponent

theorem Searching.visit (h : Searching g W s) (hW : ∀ a ∈ W, g.edges a ⊆ W) {node : T}
    (hn : node ∈ s.openNodes) : Searching g W (g.visit node s) ∧
      (g.visit node s).unfinishedNodes.card + (g.visit node s).openNodes.card + 1 ≤
        s.unfinishedNodes.card + s.openNodes.card := by
  have hmem (a : T) : a ∈ W ↔ a ∈ s.connectedComponent ∨ a ∈ s.unfinishedNodes := by
    rw [← h.union, Finset.mem_union]
  have hdisj := Finset.disjoint_left.mp h.disjoint
  refine ⟨⟨?_, ?_, ?_, ?_⟩, ?_⟩
  · ext a
    simp only [UndirectedGraph.visit, Finset.mem_union, Finset.mem_inter, Finset.mem_sdiff, hmem]
    tauto
  · rw [Finset.disjoint_left]
    intro a ha
    simp only [UndirectedGraph.visit, Finset.mem_union, Finset.mem_inter, Finset.mem_sdiff] at ha ⊢
    rcases ha with ha | ha
    · exact fun hu => hdisj ha hu.1
    · exact fun hu => hu.2 ha
  · intro a ha
    simp only [UndirectedGraph.visit, Finset.mem_union, Finset.mem_erase] at ha ⊢
    exact ha.imp (fun ho => h.openNodes ho.2) id
  · intro a ha hopen b hb
    simp only [UndirectedGraph.visit, Finset.mem_union, Finset.mem_erase, Finset.mem_inter,
      not_or, not_and] at ha hopen ⊢
    have hcomp : a ∈ s.connectedComponent := ha.resolve_right fun hi => hopen.2 hi.1 hi.2
    by_cases hnode : a = node
    · have hbW := hW a ((hmem a).mpr (.inl hcomp)) hb
      rcases (hmem b).mp hbW with hb' | hb'
      · exact .inl hb'
      · exact .inr ⟨hnode ▸ hb, hb'⟩
    · exact .inl (h.closed a hcomp (hopen.1 hnode) hb)
  · have hinter := Finset.card_sdiff_add_card_inter s.unfinishedNodes (g.edges node)
    have hunion := Finset.card_union_le (s.openNodes.erase node) (g.edges node ∩ s.unfinishedNodes)
    have herase := Finset.card_erase_add_one hn
    have hsdiff : s.unfinishedNodes \ (g.edges node ∩ s.unfinishedNodes) =
        s.unfinishedNodes \ g.edges node := by
      ext a
      simp only [Finset.mem_sdiff, Finset.mem_inter]
      tauto
    rw [Finset.inter_comm] at hinter
    simp only [UndirectedGraph.visit, hsdiff]
    omega

theorem explore_spec (sets : SetBegin T) (hW : ∀ a ∈ W, g.edges a ⊆ W) {fuel : Nat}
    (h : Searching g W s) (hf : s.unfinishedNodes.card + s.openNodes.card < fuel) :
    Ensures (explore sets g fuel s) (fun s' => Searching g W s' ∧ s'.openNodes = ∅ ∧
      s.connectedComponent ⊆ s'.connectedComponent) := by
  induction fuel generalizing s with
  | zero => omega
  | succ fuel ih =>
    rw [explore]
    by_cases ho : s.openNodes = ∅
    · rw [if_pos ho]
      exact Ensures.pure ⟨h, ho, subset_rfl⟩
    · have hn := sets.mem _ (Finset.nonempty_iff_ne_empty.mpr ho)
      obtain ⟨hs, hcard⟩ := h.visit hW hn
      rw [if_neg ho]
      refine (ih hs (by omega)).mono ?_
      rintro s' ⟨hs', ho', hsub⟩
      exact ⟨hs', ho', Finset.subset_union_left.trans hsub⟩

/-- The sets partition `W`, and no edge leads from one to another. -/
structure IsPartition (g : UndirectedGraph T) (W : Finset T) (cs : List (Finset T)) : Prop where
  nonempty : ∀ c ∈ cs, c.Nonempty
  disjoint : cs.Pairwise Disjoint
  mem : ∀ a, a ∈ W ↔ ∃ c ∈ cs, a ∈ c
  closed : ∀ c ∈ cs, ∀ a ∈ c, g.edges a ⊆ c

theorem components_spec (sets : SetBegin T) (hg : g.Wf) {fuel : Nat}
    (hW : ∀ a ∈ W, g.edges a ⊆ W) (hf : W.card < fuel) :
    Ensures (components sets g fuel W) (IsPartition g W) := by
  induction fuel generalizing W with
  | zero => omega
  | succ fuel ih =>
    rw [components]
    by_cases hempty : W = ∅
    · rw [if_pos hempty, hempty]
      exact Ensures.pure ⟨by simp, .nil, by simp, by simp⟩
    have hfirst := sets.mem W (Finset.nonempty_iff_ne_empty.mpr hempty)
    have hstart : Searching g W ⟨W.erase (sets.begin W), {sets.begin W}, {sets.begin W}⟩ := by
      refine ⟨?_, ?_, subset_rfl, fun a ha hn => absurd ha hn⟩
      · rw [← Finset.insert_eq, Finset.insert_erase hfirst]
      · simp
    have hcard := Finset.card_erase_add_one hfirst
    rw [if_neg hempty]
    refine Ensures.bind (explore_spec sets hW hstart (by simp; omega)) ?_
    rintro s ⟨hs, ho, hsub⟩
    have hclosed (a : T) (ha : a ∈ s.connectedComponent) : g.edges a ⊆ s.connectedComponent :=
      hs.closed a ha (by simp [ho])
    have hmem (a : T) : a ∈ W ↔ a ∈ s.connectedComponent ∨ a ∈ s.unfinishedNodes := by
      rw [← hs.union, Finset.mem_union]
    have hdisj := Finset.disjoint_left.mp hs.disjoint
    have hrest (a : T) (ha : a ∈ s.unfinishedNodes) : g.edges a ⊆ s.unfinishedNodes := by
      intro b hb
      refine ((hmem b).mp (hW a ((hmem a).mpr (.inr ha)) hb)).resolve_left fun hc => ?_
      exact hdisj (hclosed b hc (hg.symm a b hb)) ha
    have hin : sets.begin W ∈ s.connectedComponent := hsub (Finset.mem_singleton_self _)
    have hlt : s.unfinishedNodes.card < W.card := by
      apply Finset.card_lt_card
      refine ⟨fun a ha => (hmem a).mpr (.inr ha), fun hsub => ?_⟩
      exact hdisj hin (hsub hfirst)
    refine Ensures.bind (ih hrest (by omega)) ?_
    rintro rest ⟨hne, hpair, hall, hcl⟩
    refine Ensures.pure ⟨?_, ?_, fun a => ?_, ?_⟩
    · rintro c (_ | ⟨_, hc⟩)
      · exact ⟨_, hin⟩
      · exact hne c hc
    · refine List.pairwise_cons.mpr ⟨fun c hc => ?_, hpair⟩
      exact Finset.disjoint_left.mpr fun a ha hac => hdisj ha ((hall a).mpr ⟨c, hc, hac⟩)
    · rw [hmem, hall]
      simp
    · rintro c (_ | ⟨_, hc⟩)
      · exact hclosed
      · exact hcl c hc

theorem getConnectedComponents_spec (sets : SetBegin T) (hg : g.Wf) :
    Ensures (g.getConnectedComponents sets) (IsPartition g g.nodes) :=
  components_spec sets hg (fun a _ => hg.subset a) (Nat.lt_succ_self _)

end Components

section Connected

variable {g : UndirectedGraph T} {s s' : Search T} {first : T} {c : Finset T}

/-- Every closed set with the node has all of `c`. -/
structure ReachedFrom (g : UndirectedGraph T) (first : T) (c : Finset T) : Prop where
  mem : first ∈ c
  subset : ∀ D : Finset T, first ∈ D → (∀ a ∈ D, g.edges a ⊆ D) → c ⊆ D

theorem ReachedFrom.explore (sets : SetBegin T) {fuel : Nat} (h : ReachedFrom g first s.connectedComponent)
    (ho : s.openNodes ⊆ s.connectedComponent) (hs : explore sets g fuel s = some s') :
    ReachedFrom g first s'.connectedComponent := by
  induction fuel generalizing s with
  | zero => cases hs
  | succ fuel ih =>
    rw [UndirectedGraph.explore] at hs
    by_cases hopen : s.openNodes = ∅
    · rw [if_pos hopen] at hs
      obtain rfl := Option.some.inj hs
      exact h
    · rw [if_neg hopen] at hs
      have hnode := ho (sets.mem _ (Finset.nonempty_iff_ne_empty.mpr hopen))
      apply ih _ _ hs
      · constructor
        · exact Finset.mem_union_left _ h.mem
        · intro D hD hclosed
          have hsub := h.subset D hD hclosed
          apply Finset.union_subset hsub
          exact Finset.inter_subset_left.trans (hclosed _ (hsub hnode))
      · apply Finset.union_subset
        · exact ((Finset.erase_subset _ _).trans ho).trans Finset.subset_union_left
        · exact Finset.subset_union_right

theorem reachedFrom_of_mem_components (sets : SetBegin T) {fuel : Nat} {W : Finset T}
    {cs : List (Finset T)} (hcs : components sets g fuel W = some cs) (hc : c ∈ cs) :
    ∃ first, ReachedFrom g first c := by
  induction fuel generalizing W cs with
  | zero => cases hcs
  | succ fuel ih =>
    rw [components] at hcs
    by_cases hempty : W = ∅
    · rw [if_pos hempty] at hcs
      obtain rfl := Option.some.inj hcs
      cases hc
    · rw [if_neg hempty] at hcs
      obtain ⟨s, hs, hcs⟩ := Option.bind_eq_some_iff.mp hcs
      obtain ⟨rest, hrest, hcs⟩ := Option.bind_eq_some_iff.mp hcs
      obtain rfl := Option.some.inj hcs
      rcases List.mem_cons.mp hc with rfl | hc
      · have hstart : ReachedFrom g (sets.begin W) {sets.begin W} :=
          ⟨Finset.mem_singleton_self _, fun D hD _ => Finset.singleton_subset_iff.mpr hD⟩
        exact ⟨_, ReachedFrom.explore sets hstart subset_rfl hs⟩
      · exact ih hrest hc

/-- A component has no proper part that is closed under the edges. -/
theorem eq_of_closed (sets : SetBegin T) (hg : g.Wf) {cs : List (Finset T)}
    (hcs : g.getConnectedComponents sets = some cs) (hc : c ∈ cs) {D : Finset T} (hne : D.Nonempty)
    (hsub : D ⊆ c) (hD : ∀ a ∈ D, g.edges a ⊆ D) : D = c := by
  obtain ⟨first, hfirst⟩ := reachedFrom_of_mem_components sets hcs hc
  obtain ⟨cs', hcs', hpart⟩ := getConnectedComponents_spec sets hg
  obtain rfl : cs' = cs := Option.some.inj (hcs'.symm.trans hcs)
  by_cases hin : first ∈ D
  · exact hsub.antisymm (hfirst.subset D hin hD)
  · have hrest : c ⊆ c \ D := by
      apply hfirst.subset
      · exact Finset.mem_sdiff.mpr ⟨hfirst.mem, hin⟩
      · intro a ha b hb
        obtain ⟨ha, hout⟩ := Finset.mem_sdiff.mp ha
        exact Finset.mem_sdiff.mpr ⟨hpart.closed c hc a ha hb, fun hbD => hout (hD b hbD (hg.symm a b hb))⟩
    obtain ⟨a, ha⟩ := hne
    exact absurd ha (Finset.mem_sdiff.mp (hrest (hsub ha))).2

end Connected

end UndirectedGraph

end Hypertrie
