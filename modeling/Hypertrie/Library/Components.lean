import Hypertrie.Library.Worklist

/-! Connected components of a finite graph that is given by a list of edges. They are
numbered by their first vertices, as a search from one vertex after the other finds them. -/

namespace Components

variable {α : Type} [DecidableEq α]

/-- The targets of the edges that leave a vertex. -/
def successors (edges : List (α × α)) (a : α) : List α :=
  (edges.filter (fun e => e.1 = a)).map Prod.snd

/-- The vertices that a search meets; there is a round for each edge and two more. -/
def reachable (edges : List (α × α)) (a : α) : Finset α :=
  (Worklist.run (fun a => some (successors edges a)) (edges.length + 2) [a] ∅).getD ∅

def undirected (edges : List (α × α)) : List (α × α) := edges ++ edges.map Prod.swap

def connectedComponents (vertices : List α) (edges : List (α × α)) : List (List α) :=
  (vertices.filter (fun v => vertices.find? (· ∈ reachable (undirected edges) v) = some v)).map
    (fun v => vertices.filter (· ∈ reachable (undirected edges) v))

/-- There is an edge. -/
def Edge (edges : List (α × α)) (a b : α) : Prop := (a, b) ∈ edges

variable {vertices component component' : List α} {edges : List (α × α)} {a b v : α}

section Reachable

theorem mem_successors : b ∈ successors edges a ↔ Edge edges a b := by
  simp [successors, Edge]

/-- Each edge leaves one vertex. -/
theorem sum_length_successors_le (s : Finset α) (edges : List (α × α)) :
    ∑ a ∈ s, (successors edges a).length ≤ edges.length := by
  induction edges with
  | nil => simp [successors]
  | cons e edges ih =>
    have hone : ∑ a ∈ s, (if e.1 = a then 1 else 0) ≤ 1 := by
      rw [Finset.sum_ite_eq]
      split
      · exact le_rfl
      · exact Nat.zero_le 1
    have hlength (a : α) : (successors (e :: edges) a).length =
        (if e.1 = a then 1 else 0) + (successors edges a).length := by
      by_cases ha : e.1 = a
      · simp [successors, ha, Nat.add_comm]
      · simp [successors, ha]
    rw [Finset.sum_congr rfl fun a _ => hlength a, Finset.sum_add_distrib, List.length_cons]
    omega

theorem closed_vertices (edges : List (α × α)) (a : α) :
    Worklist.Closed (fun a => some (successors edges a)) (insert a (edges.map Prod.snd).toFinset) := by
  constructor
  intro v _
  refine ⟨_, rfl, fun b hb => Finset.mem_insert_of_mem ?_⟩
  exact List.mem_toFinset.mpr (List.mem_map_of_mem (mem_successors.mp hb))

theorem mem_reachable : b ∈ reachable edges a ↔ Relation.ReflTransGen (Edge edges) a b := by
  have hedge : Worklist.Edge (fun a => some (successors edges a)) = Edge edges := by
    funext a b
    simp only [Worklist.Edge, Option.some.injEq, exists_eq_left', mem_successors]
  have hremaining := sum_length_successors_le
    (insert a (edges.map Prod.snd).toFinset \ ∅) edges
  have hrun : Ensures (Worklist.run (fun a => some (successors edges a)) (edges.length + 2) [a] ∅)
      (fun visited => ∀ b, b ∈ visited ↔ ∃ s ∈ [a],
        Relation.ReflTransGen (Worklist.Edge fun a => some (successors edges a)) s b) := by
    apply Worklist.run_spec (closed_vertices edges a) (Worklist.Searching.initial _ [a])
    · intro v hv
      rw [List.mem_singleton.mp hv]
      exact Finset.mem_insert_self _ _
    · simp only [Worklist.remaining, List.length_singleton, Option.getD_some]
      omega
  obtain ⟨visited, hrun, hmem⟩ := hrun
  rw [reachable, hrun, Option.getD_some, hmem, hedge]
  simp only [List.mem_singleton, exists_eq_left]

omit [DecidableEq α] in
theorem edge_undirected : Edge (undirected edges) a b ↔ Edge edges a b ∨ Edge edges b a := by
  simp [Edge, undirected]

/-- Connected by edges of any direction. -/
def Connected (edges : List (α × α)) : α → α → Prop :=
  Relation.ReflTransGen (Edge (undirected edges))

omit [DecidableEq α] in
theorem Connected.symm (h : Connected edges a b) : Connected edges b a := by
  induction h with
  | refl => exact .refl
  | tail _ hedge ih => exact .head (edge_undirected.mpr (edge_undirected.mp hedge).symm) ih

omit [DecidableEq α] in
theorem Connected.trans {c : α} (h : Connected edges a b) (h' : Connected edges b c) :
    Connected edges a c :=
  Relation.ReflTransGen.trans h h'

omit [DecidableEq α] in
theorem connected_of_edge (h : Edge edges a b) : Connected edges a b :=
  .single (edge_undirected.mpr (.inl h))

theorem mem_reachable_undirected : b ∈ reachable (undirected edges) a ↔ Connected edges a b :=
  mem_reachable

/-- Connected vertices reach the same ones. -/
theorem Connected.reachable_eq (h : Connected edges a b) :
    reachable (undirected edges) a = reachable (undirected edges) b := by
  ext c
  rw [mem_reachable_undirected, mem_reachable_undirected]
  exact ⟨Connected.trans h.symm, Connected.trans h⟩

end Reachable

theorem mem_connectedComponents : component ∈ connectedComponents vertices edges ↔
    ∃ v ∈ vertices, vertices.find? (· ∈ reachable (undirected edges) v) = some v ∧
      vertices.filter (· ∈ reachable (undirected edges) v) = component := by
  simp only [connectedComponents, List.mem_map, List.mem_filter, decide_eq_true_eq, and_assoc]

theorem sublist_of_mem (h : component ∈ connectedComponents vertices edges) :
    component.Sublist vertices := by
  obtain ⟨v, -, -, rfl⟩ := mem_connectedComponents.mp h
  exact List.filter_sublist

theorem ne_nil_of_mem (h : component ∈ connectedComponents vertices edges) : component ≠ [] := by
  obtain ⟨v, hv, -, rfl⟩ := mem_connectedComponents.mp h
  refine List.ne_nil_of_mem (List.mem_filter.mpr ⟨hv, decide_eq_true ?_⟩)
  exact mem_reachable_undirected.mpr .refl

/-- A component has what is connected with one of its vertices. -/
theorem mem_iff_connected (h : component ∈ connectedComponents vertices edges) (ha : a ∈ component) :
    b ∈ component ↔ b ∈ vertices ∧ Connected edges a b := by
  obtain ⟨v, -, -, rfl⟩ := mem_connectedComponents.mp h
  have hva := mem_reachable_undirected.mp (of_decide_eq_true (List.mem_filter.mp ha).2)
  rw [List.mem_filter, decide_eq_true_eq, hva.reachable_eq, mem_reachable_undirected]

/-- Each vertex is in a component. -/
theorem exists_component (hv : v ∈ vertices) :
    ∃ component ∈ connectedComponents vertices edges, v ∈ component := by
  have hself : v ∈ reachable (undirected edges) v := mem_reachable_undirected.mpr .refl
  obtain ⟨first, hfirst⟩ : ∃ first,
      vertices.find? (· ∈ reachable (undirected edges) v) = some first :=
    Option.isSome_iff_exists.mp (List.find?_isSome.mpr ⟨v, hv, decide_eq_true hself⟩)
  have hconnected : Connected edges v first :=
    mem_reachable_undirected.mp (by simpa using List.find?_some hfirst)
  refine ⟨_, mem_connectedComponents.mpr ⟨first, List.mem_of_find?_eq_some hfirst, ?_, rfl⟩, ?_⟩
  · rw [← hconnected.reachable_eq]
    exact hfirst
  · rw [List.mem_filter, ← hconnected.reachable_eq]
    exact ⟨hv, decide_eq_true hself⟩

theorem mem_vertices_iff : v ∈ vertices ↔
    ∃ component ∈ connectedComponents vertices edges, v ∈ component := by
  constructor
  · exact exists_component
  · rintro ⟨component, hc, hv⟩
    exact (sublist_of_mem hc).subset hv

theorem pairwise_disjoint (hn : vertices.Nodup) :
    (connectedComponents vertices edges).Pairwise List.Disjoint := by
  rw [connectedComponents, List.pairwise_map]
  refine (hn.filter _).imp_of_mem fun {v w} hv hw hne a ha ha' => hne ?_
  have hva := mem_reachable_undirected.mp (of_decide_eq_true (List.mem_filter.mp ha).2)
  have hwa := mem_reachable_undirected.mp (of_decide_eq_true (List.mem_filter.mp ha').2)
  have hfirst := of_decide_eq_true (List.mem_filter.mp hv).2
  have hfirst' := of_decide_eq_true (List.mem_filter.mp hw).2
  rw [(hva.trans hwa.symm).reachable_eq, hfirst'] at hfirst
  exact (Option.some.inj hfirst).symm

/-- Together the components are the graph. -/
theorem perm_flatten (hn : vertices.Nodup) :
    (connectedComponents vertices edges).flatten.Perm vertices := by
  have hnodup : (connectedComponents vertices edges).flatten.Nodup :=
    List.nodup_flatten.mpr ⟨fun c hc => hn.sublist (sublist_of_mem hc), pairwise_disjoint hn⟩
  refine (List.perm_ext_iff_of_nodup hnodup hn).mpr fun v => ?_
  rw [List.mem_flatten, ← mem_vertices_iff]

/-- If all vertices are connected there is one component at most. -/
theorem length_le_one (hn : vertices.Nodup)
    (h : ∀ a ∈ vertices, ∀ b ∈ vertices, Connected edges a b) :
    (connectedComponents vertices edges).length ≤ 1 := by
  by_contra hlen
  obtain ⟨c, rest, hcs⟩ := List.exists_cons_of_length_pos (show 0 <
    (connectedComponents vertices edges).length by omega)
  rw [hcs, List.length_cons] at hlen
  obtain ⟨c', rest, rfl⟩ := List.exists_cons_of_length_pos (show 0 < rest.length by omega)
  have hc : c ∈ connectedComponents vertices edges := hcs ▸ List.mem_cons_self
  have hc' : c' ∈ connectedComponents vertices edges :=
    hcs ▸ List.mem_cons_of_mem _ List.mem_cons_self
  obtain ⟨a, ha⟩ := List.exists_mem_of_ne_nil _ (ne_nil_of_mem hc)
  obtain ⟨b, hb⟩ := List.exists_mem_of_ne_nil _ (ne_nil_of_mem hc')
  have hb' := (sublist_of_mem hc').subset hb
  have hdisj := @pairwise_disjoint _ _ vertices edges hn
  rw [hcs] at hdisj
  exact (List.pairwise_cons.mp hdisj).1 c' List.mem_cons_self
    ((mem_iff_connected hc ha).mpr ⟨hb', h a ((sublist_of_mem hc).subset ha) b hb'⟩) hb

/-- A part of a list without repetition, as a filter. -/
theorem filter_mem_of_sublist (hn : vertices.Nodup) (hsub : component.Sublist vertices) :
    vertices.filter (· ∈ component) = component := by
  have hself : component.filter (· ∈ component) = component :=
    List.filter_eq_self.mpr fun a ha => decide_eq_true ha
  have hle := hsub.filter (· ∈ component)
  rw [hself] at hle
  refine (hle.eq_of_length (List.Perm.length_eq ?_)).symm
  refine (List.perm_ext_iff_of_nodup (hn.sublist hsub) (hn.filter _)).mpr fun a => ?_
  rw [List.mem_filter, decide_eq_true_eq, and_iff_right_of_imp fun ha => hsub.subset ha]

theorem eq_of_sublist (hn : vertices.Nodup) (hsub : component.Sublist vertices)
    (hsub' : component'.Sublist vertices) (h : ∀ a, a ∈ component ↔ a ∈ component') :
    component = component' := by
  rw [← filter_mem_of_sublist hn hsub, ← filter_mem_of_sublist hn hsub']
  exact List.filter_congr fun a _ => by simp only [h a]

/-- Components with a vertex in common are the same. -/
theorem eq_of_mem (hn : vertices.Nodup) (hc : component ∈ connectedComponents vertices edges)
    (hc' : component' ∈ connectedComponents vertices edges) (ha : a ∈ component) (ha' : a ∈ component') :
    component = component' :=
  eq_of_sublist hn (sublist_of_mem hc) (sublist_of_mem hc') fun b => by
    rw [mem_iff_connected hc ha, mem_iff_connected hc' ha']

/-- What is connected with one of its vertices is a component. -/
theorem mem_of_connected (hn : vertices.Nodup) (hsub : component.Sublist vertices) (ha : a ∈ component)
    (h : ∀ b, b ∈ component ↔ b ∈ vertices ∧ Connected edges a b) :
    component ∈ connectedComponents vertices edges := by
  obtain ⟨c, hc, hac⟩ := @exists_component _ _ vertices edges a (hsub.subset ha)
  have heq : component = c := eq_of_sublist hn hsub (sublist_of_mem hc) fun b => by
    rw [h b, mem_iff_connected hc hac]
  exact heq ▸ hc

/-- With one component at most, that is all. -/
theorem eq_singleton (hn : vertices.Nodup) (hne : vertices ≠ [])
    (hlen : (connectedComponents vertices edges).length ≤ 1) :
    connectedComponents vertices edges = [vertices] := by
  obtain ⟨v, hv⟩ := List.exists_mem_of_ne_nil _ hne
  obtain ⟨c, hc, -⟩ := @exists_component _ _ vertices edges v hv
  have hcs : connectedComponents vertices edges = [c] := by
    obtain ⟨c', hcs⟩ := List.length_eq_one_iff.mp (le_antisymm hlen (List.length_pos_of_mem hc))
    rw [hcs, List.mem_singleton] at hc
    rw [hcs, hc]
  have hflat := (@perm_flatten _ _ vertices edges hn).length_eq
  rw [hcs, List.flatten_singleton] at hflat
  rw [hcs, (sublist_of_mem hc).eq_of_length hflat]

theorem nodup_connectedComponents (hn : vertices.Nodup) :
    (connectedComponents vertices edges).Nodup := by
  refine (pairwise_disjoint hn).imp_of_mem fun {c c'} hc _ hdisj heq => ?_
  obtain ⟨v, hv⟩ := List.exists_mem_of_ne_nil _ (ne_nil_of_mem hc)
  exact hdisj hv (heq ▸ hv)

/-- With two components each has less vertices than the graph. -/
theorem length_lt (hn : vertices.Nodup) (hlen : 1 < (connectedComponents vertices edges).length)
    (h : component ∈ connectedComponents vertices edges) : component.length < vertices.length := by
  have hperm := List.perm_cons_erase h
  have hrest : (connectedComponents vertices edges).erase component ≠ [] := by
    refine List.length_pos_iff.mp ?_
    rw [List.length_erase_of_mem h]
    omega
  obtain ⟨c, rest, hcs⟩ := List.exists_cons_of_ne_nil hrest
  have hc := List.length_pos_iff.mpr (ne_nil_of_mem (hperm.mem_iff.mpr (List.mem_cons_of_mem _
    (hcs ▸ List.mem_cons_self : c ∈ (connectedComponents vertices edges).erase component))))
  have hflat := (hperm.flatten.symm.trans (perm_flatten hn)).length_eq
  rw [hcs, List.flatten_cons, List.flatten_cons, List.length_append, List.length_append] at hflat
  omega

end Components
