import Hypertrie.Identifier

/-! Nodes and their storage. A node pointer of the source is the lookup of the
node's identifier in the storage; a failed lookup is the null pointer. -/

namespace Hypertrie

open UnorderedMap

variable {M : Type → Type → Type} [UnorderedMap M] {K V : Type}
variable [DecidableEq K]

/-- At depth 1 only `values` is used, at larger depths only `size_` and `edges`. A set of key
parts, which the source uses for bool-valued nodes of depth 1, maps each of them to `one`. -/
structure FullNode (M : Type → Type → Type) (K V : Type) where
  refCount : Nat
  size_ : Nat
  edges : Nat → M K RawIdentifier
  values : M K V

structure SingleEntryNode (K V : Type) where
  refCount : Nat
  entry : SingleEntry K V
  deriving DecidableEq, Repr

/-- The stored nodes of each depth. -/
structure NodeStorage (M : Type → Type → Type) (K V : Type) where
  fns : Nat → M RawIdentifier (FullNode M K V)
  sens : Nat → M RawIdentifier (SingleEntryNode K V)

namespace FullNode

/-- A node without children. -/
def new (refCount : Nat) : FullNode M K V := ⟨refCount, 0, fun _ => empty, empty⟩

def size (depth : Nat) (n : FullNode M K V) : Nat :=
  if depth = 1 then UnorderedMap.size n.values else n.size_

def setEdges (n : FullNode M K V) (pos : Nat) (edges : M K RawIdentifier) : FullNode M K V :=
  { n with edges := Function.update n.edges pos edges }

def insertOrAssign (t : HypertrieTrait K V) (n : FullNode M K V) (keyPart : K) (value : V) :
    FullNode M K V :=
  { n with values := assign n.values keyPart (if t.isBoolValued then t.one else value) }

/-- The number of edges at a position. -/
def card (depth : Nat) (n : FullNode M K V) (pos : Nat) : Nat :=
  if depth = 1 then UnorderedMap.size n.values else UnorderedMap.size (n.edges pos)

/-- The first of the positions with the fewest edges, or `start` if there is none. -/
def minCardPosOf (depth : Nat) (n : FullNode M K V) (positions : List Nat) (start : Nat) : Nat :=
  (positions.foldl (fun (best : Nat × Option Nat) pos =>
    if best.2.all (fun minCard => n.card depth pos < minCard) then (pos, some (n.card depth pos))
    else best) (start, none)).1

/-- The first position with the most edges. -/
def maxCardPos (depth : Nat) (n : FullNode M K V) : Nat :=
  (List.range depth).foldl (fun best pos =>
    if n.card depth best < n.card depth pos then pos else best) 0

omit [UnorderedMap M] [DecidableEq K] in
@[simp]
theorem setEdges_edges (n : FullNode M K V) (pos : Nat) (edges : M K RawIdentifier) :
    (n.setEdges pos edges).edges = Function.update n.edges pos edges := rfl

omit [DecidableEq K] in
theorem minCardPosOf_mem {depth : Nat} (n : FullNode M K V) {positions : List Nat} (start : Nat)
    (h : positions ≠ []) : n.minCardPosOf depth positions start ∈ positions := by
  unfold minCardPosOf
  have hinv := foldl_invariant
    (f := fun (best : Nat × Option Nat) pos =>
      if best.2.all (fun minCard => n.card depth pos < minCard) then (pos, some (n.card depth pos))
      else best)
    (I := fun rest best => rest.Sublist positions ∧
      (best.1 ∈ positions ∨ best.2 = none ∧ rest = positions)) (l := positions) (s := (start, none))
    ⟨List.Sublist.refl _, Or.inr ⟨rfl, rfl⟩⟩ (by
      rintro pos rest ⟨best, minCard⟩ ⟨hsub, hbest⟩
      have hpos : pos ∈ positions := hsub.subset List.mem_cons_self
      refine ⟨(List.sublist_cons_self pos rest).trans hsub, ?_⟩
      split
      next => exact Or.inl hpos
      next hne =>
        rcases hbest with hb | ⟨rfl, -⟩
        · exact Or.inl hb
        · simp at hne)
  rcases hinv.2 with hb | ⟨-, hnil⟩
  · exact hb
  · exact absurd hnil.symm h

omit [DecidableEq K] in
theorem maxCardPos_lt {depth : Nat} (n : FullNode M K V) (h : 0 < depth) :
    n.maxCardPos depth < depth := by
  unfold maxCardPos
  have hinv := foldl_invariant
    (f := fun best pos => if n.card depth best < n.card depth pos then pos else best)
    (I := fun rest best => (∀ pos ∈ rest, pos < depth) ∧ best < depth) (l := List.range depth)
    (s := 0) ⟨fun pos hp => List.mem_range.mp hp, h⟩ (by
      rintro pos rest best ⟨hrest, hbest⟩
      refine ⟨fun p hp => hrest p (List.mem_cons_of_mem _ hp), ?_⟩
      split
      · exact hrest pos List.mem_cons_self
      · exact hbest)
  exact hinv.2

end FullNode

variable [DecidableEq V] [Inhabited K]

/-- The identifier of the child for a set of entries; there is no child for no entries. -/
def childIdent (t : HypertrieTrait K V) (depth : Nat) (S : Finset (SingleEntry K V)) :
    Option RawIdentifier :=
  if S = ∅ then none else some (t.ident depth S)

@[simp]
theorem childIdent_empty (t : HypertrieTrait K V) (depth : Nat) : childIdent t depth ∅ = none := by
  simp [childIdent]

theorem childIdent_of_nonempty (t : HypertrieTrait K V) (depth : Nat) {S : Finset (SingleEntry K V)}
    (h : S.Nonempty) : childIdent t depth S = some (t.ident depth S) := by
  simp [childIdent, h.ne_empty]

theorem childIdent_eq_some {t : HypertrieTrait K V} {depth : Nat} {S : Finset (SingleEntry K V)}
    {id : RawIdentifier} : childIdent t depth S = some id ↔ S.Nonempty ∧ t.ident depth S = id := by
  rcases S.eq_empty_or_nonempty with rfl | h
  · simp
  · simp [childIdent_of_nonempty t depth h, h]

/-- The full node holds the entries `S`: every edge leads to the identifier of the matching
subset, and its size is the number of entries. -/
structure FullNode.Represents (t : HypertrieTrait K V) (depth : Nat) (n : FullNode M K V)
    (S : Finset (SingleEntry K V)) : Prop where
  size : n.size depth = S.card
  values : depth = 1 → ∀ k v, find n.values k = some v ↔ ⟨[k], v⟩ ∈ S
  edges : 1 < depth → ∀ pos < depth, ∀ k,
    find (n.edges pos) k = childIdent t (depth - 1) (split S pos k)

/-- The edges of a node that lead to `id`. -/
def FullNode.edgesTo (depth : Nat) (n : FullNode M K V) (id : RawIdentifier) : Nat :=
  if 1 < depth then ((List.range depth).map (fun pos => occurrences (n.edges pos) id)).sum else 0

omit [DecidableEq V] [Inhabited K] in
theorem FullNode.edgesTo_pos {depth : Nat} {n : FullNode M K V} {id : RawIdentifier} :
    0 < n.edgesTo depth id ↔ 1 < depth ∧ ∃ pos < depth, ∃ k, find (n.edges pos) k = some id := by
  unfold edgesTo
  split
  next hd =>
    constructor
    · intro h
      obtain ⟨x, hx, hpos⟩ := List.exists_mem_ne_zero_of_sum_ne_zero h.ne'
      obtain ⟨pos, hp, rfl⟩ := List.mem_map.mp hx
      exact ⟨hd, pos, List.mem_range.mp hp, occurrences_pos.mp (by omega)⟩
    · rintro ⟨-, pos, hp, hk⟩
      have hmem : occurrences (n.edges pos) id ∈
          (List.range depth).map (fun pos => occurrences (n.edges pos) id) :=
        List.mem_map.mpr ⟨pos, List.mem_range.mpr hp, rfl⟩
      have hle := List.single_le_sum (fun _ _ => Nat.zero_le _) _ hmem
      have := occurrences_pos.mpr hk
      omega
  next hd => simp [hd]

namespace NodeStorage

def empty : NodeStorage M K V := ⟨fun _ => UnorderedMap.empty, fun _ => UnorderedMap.empty⟩

/-- The edges of the stored nodes of this depth that lead to `id`. -/
def edgesTo (depth : Nat) (fns : M RawIdentifier (FullNode M K V)) (id : RawIdentifier) : Nat :=
  total (fun p => p.2.edgesTo depth id) fns

omit [DecidableEq K] [DecidableEq V] [Inhabited K] in
theorem edgesTo_pos {depth : Nat} {fns : M RawIdentifier (FullNode M K V)} {id : RawIdentifier} :
    0 < edgesTo depth fns id ↔ ∃ parent n, find fns parent = some n ∧ 0 < n.edgesTo depth id := by
  unfold edgesTo total
  constructor
  · intro h
    obtain ⟨x, hx, hpos⟩ := List.exists_mem_ne_zero_of_sum_ne_zero h.ne'
    obtain ⟨⟨parent, n⟩, hp, rfl⟩ := List.mem_map.mp hx
    exact ⟨parent, n, (mem_entries _ _ _).mp hp, by simpa [Nat.pos_iff_ne_zero] using hpos⟩
  · rintro ⟨parent, n, hf, hpos⟩
    have hmem : n.edgesTo depth id ∈ (entries fns).map (fun p => p.2.edgesTo depth id) :=
      List.mem_map.mpr ⟨(parent, n), (mem_entries _ _ _).mpr hf, rfl⟩
    have hle := List.single_le_sum (fun _ _ => Nat.zero_le _) _ hmem
    omega

variable (t : HypertrieTrait K V) (ns : NodeStorage M K V) (depth : Nat)

/-- The identifier of a stored node; without a node the result is the empty container. -/
def lookup (id : RawIdentifier) : RawIdentifier :=
  if id.isEmpty then seed
  else if t.isFn id then if contains (ns.fns depth) id then id else seed
  else if contains (ns.sens depth) id then id else seed

end NodeStorage

end Hypertrie
