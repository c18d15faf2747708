import Hypertrie.DiagonalSlice

/-! Diagonals of a hypertrie. A diagonal iterates over the slices that are not
empty, or looks for the slice of a given key part. -/

namespace Hypertrie

open UnorderedMap

variable {M : Type → Type → Type} [UnorderedMap M] {K V : Type}
variable [DecidableEq K] [DecidableEq V] [Inhabited K]

namespace FullNode

/-- What an iterator over the edges at a position runs through; at depth 1 these are values. -/
def children (depth : Nat) (n : FullNode M K V) (pos : Nat) : List (K × (V ⊕ RawIdentifier)) :=
  if depth = 1 then (entries n.values).map (fun child => (child.1, .inl child.2))
  else (entries (n.edges pos)).map (fun child => (child.1, .inr child.2))

end FullNode

/-- `RawHashDiagonal` of a full node. `iter` lists the children from the current one on. -/
structure FullNodeDiagonal (K V : Type) where
  depth : Nat
  nodec : RawIdentifier
  diagPoss : RawKeyPositions
  subDiagPoss : RawKeyPositions
  iter : List (K × (V ⊕ RawIdentifier))
  value : Option (SliceResult K V)

namespace FullNodeDiagonal

variable (t : HypertrieTrait K V) (ns : NodeStorage M K V)

def new (depth : Nat) (nodec : RawIdentifier) (diagPoss : RawKeyPositions) : FullNodeDiagonal K V :=
  ⟨depth, nodec, diagPoss, [], [], none⟩

def diagDepth (d : FullNodeDiagonal K V) : Nat := d.diagPoss.count

def resultDepth (d : FullNodeDiagonal K V) : Nat := d.depth - d.diagDepth

/-- The slice at a child when it is the only diagonal position. -/
def retrieveValue (d : FullNodeDiagonal K V) : V ⊕ RawIdentifier → SliceResult K V
  | .inl v => .value (if t.isBoolValued then t.one else v)
  | .inr id =>
    .node (if t.inPlaceNode d.resultDepth then id else ns.lookup t d.resultDepth id)

/-- The value from the diagonal of the child. -/
def retrieveSubdiagonalValue (d : FullNodeDiagonal K V) (keyPart : K) :
    V ⊕ RawIdentifier → Option (SliceResult K V)
  | .inl _ => none
  | .inr id =>
    if t.inPlaceNode (d.depth - 1) then
      if t.isSen id then
        some (.value (if keyAt (t.getEntry id).key 0 = keyPart then t.one else t.zero))
      else (RawHypertrieContext.get t ns 1 id [keyPart]).map .value
    else
      RawHypertrieContext.diagonalSlice t ns (d.depth - 1) (ns.lookup t (d.depth - 1) id)
        d.subDiagPoss keyPart

/-- With more than one diagonal position, children without a slice are skipped. -/
def forwardUntilResult :
    FullNodeDiagonal K V → List (K × (V ⊕ RawIdentifier)) → Option (FullNodeDiagonal K V)
  | d, [] => some { d with iter := [] }
  | d, child :: rest =>
    if 2 ≤ d.diagDepth then do
      let value ← d.retrieveSubdiagonalValue t ns child.1 child.2
      if value.found t then some { d with iter := child :: rest, value := some value }
      else forwardUntilResult { d with value := some value } rest
    else some { d with iter := child :: rest, value := some (d.retrieveValue t ns child.2) }

def minCardPos (d : FullNodeDiagonal K V) (node : FullNode M K V) : Nat :=
  if d.depth = 1 then 0 else node.minCardPosMask d.depth d.diagPoss

def begin (d : FullNodeDiagonal K V) : Option (FullNodeDiagonal K V) := do
  let node ← find (ns.fns d.depth) d.nodec
  let pos := d.minCardPos node
  forwardUntilResult t ns { d with subDiagPoss := d.diagPoss.subRawKeyPositions pos }
    (node.children d.depth pos)

/-- `operator++`. -/
def inc (d : FullNodeDiagonal K V) : Option (FullNodeDiagonal K V) :=
  d.forwardUntilResult t ns d.iter.tail

def ended (d : FullNodeDiagonal K V) : Bool := d.iter.isEmpty

def currentKeyPart (d : FullNodeDiagonal K V) : Option K := d.iter.head?.map Prod.fst

def find (d : FullNodeDiagonal K V) (keyPart : K) : Option (FullNodeDiagonal K V × Bool) := do
  let value ← RawHypertrieContext.diagonalSlice t ns d.depth d.nodec d.diagPoss keyPart
  some ({ d with value := some value }, value.found t)

def size (d : FullNodeDiagonal K V) : Option Nat :=
  if d.nodec.isEmpty then some 0
  else (UnorderedMap.find (ns.fns d.depth) d.nodec).map fun node =>
    if d.depth = 1 then node.size d.depth
    else UnorderedMap.size (node.edges (node.minCardPosMask d.depth d.diagPoss))

end FullNodeDiagonal

/-- `RawHashDiagonal` of a single-entry node. -/
structure SingleEntryDiagonal (K V : Type) where
  resultDepth : Nat
  keyPart : K
  value : Option (SliceResult K V)
  ended : Bool
  isDiagonal : Bool

namespace SingleEntryDiagonal

variable (t : HypertrieTrait K V)

/-- `entry` is what the pointer of the node container leads to. -/
def new (depth : Nat) (nodec : RawIdentifier) (entry : Option (SingleEntry K V))
    (diagPoss : RawKeyPositions) : Option (SingleEntryDiagonal K V) :=
  let resultDepth := depth - diagPoss.count
  if t.inPlaceNode depth then
    some ⟨resultDepth, keyAt (t.getEntry nodec).key 0, some (.value t.one), true, true⟩
  else do
    let entry ← entry
    let keyPart := keyAt entry.key diagPoss.firstPos
    match diagPoss.slice entry.key keyPart with
    | none => some ⟨resultDepth, keyPart, none, true, false⟩
    | some key =>
      if resultDepth = 0 then
        some ⟨resultDepth, keyPart, some (.value (if t.isBoolValued then t.one else entry.value)),
          true, true⟩
      else
        some ⟨resultDepth, keyPart, some (.singleEntry (t.encodeSingleEntry resultDepth
          ⟨key, entry.value⟩) ⟨key, entry.value⟩), true, true⟩

def begin (d : SingleEntryDiagonal K V) : SingleEntryDiagonal K V :=
  if d.isDiagonal then { d with ended := false } else d

/-- `operator++`. -/
def inc (d : SingleEntryDiagonal K V) : SingleEntryDiagonal K V := { d with ended := true }

def find (d : SingleEntryDiagonal K V) (keyPart : K) : Bool :=
  d.isDiagonal && keyPart == d.keyPart

def size (d : SingleEntryDiagonal K V) : Nat := if d.isDiagonal then 1 else 0

end SingleEntryDiagonal

namespace ConstHypertrie

variable (t : HypertrieTrait K V) (ns : NodeStorage M K V)

def size (h : ConstHypertrie K V) : Option Nat :=
  if h.empty then some 0
  else if h.depth = 0 || t.isSen h.nodeIdentifier then some 1
  else if h.contextless then none
  else (UnorderedMap.find (ns.fns h.depth) h.nodeIdentifier).map (fun node => node.size h.depth)

/-- What the node pointer of a single-entry hypertrie leads to. -/
def singleEntry (h : ConstHypertrie K V) : Option (SingleEntry K V) :=
  if h.contextless then h.nodePtr.entry
  else RawHypertrieContext.storedEntry ns h.depth h.nodeIdentifier

end ConstHypertrie

inductive HashDiagonal (K V : Type) where
  | fullNode (d : FullNodeDiagonal K V)
  | singleEntryNode (d : SingleEntryDiagonal K V)

namespace HashDiagonal

variable (t : HypertrieTrait K V) (ns : NodeStorage M K V)

def new (hypertrie : ConstHypertrie K V) (diagPoss : RawKeyPositions) :
    Option (HashDiagonal K V) := do
  let size ← hypertrie.size t ns
  if 1 < size then
    some (.fullNode (.new hypertrie.depth hypertrie.nodeIdentifier diagPoss))
  else
    (SingleEntryDiagonal.new t hypertrie.depth hypertrie.nodeIdentifier (hypertrie.singleEntry ns)
      diagPoss).map .singleEntryNode

def begin : HashDiagonal K V → Option (HashDiagonal K V)
  | .fullNode d => (d.begin t ns).map .fullNode
  | .singleEntryNode d => some (.singleEntryNode d.begin)

def inc : HashDiagonal K V → Option (HashDiagonal K V)
  | .fullNode d => (d.inc t ns).map .fullNode
  | .singleEntryNode d => some (.singleEntryNode d.inc)

def ended : HashDiagonal K V → Bool
  | .fullNode d => d.ended
  | .singleEntryNode d => d.ended

def currentKeyPart : HashDiagonal K V → Option K
  | .fullNode d => d.currentKeyPart
  | .singleEntryNode d => some d.keyPart

def currentValue : HashDiagonal K V → Option (SliceResult K V)
  | .fullNode d => d.value
  | .singleEntryNode d => d.value

def find (d : HashDiagonal K V) (keyPart : K) : Option (HashDiagonal K V × Bool) :=
  match d with
  | .fullNode d => (d.find t ns keyPart).map (fun res => (.fullNode res.1, res.2))
  | .singleEntryNode d => some (.singleEntryNode d, d.find keyPart)

def resultDepth : HashDiagonal K V → Nat
  | .fullNode d => d.resultDepth
  | .singleEntryNode d => d.resultDepth

/-- The slice as a hypertrie. A node belongs to the context of the hypertrie; an entry cut out of
a larger one belongs to the diagonal, which keeps it. -/
def currentHypertrie (d : HashDiagonal K V) : Option (ConstHypertrie K V) := do
  let value ← d.currentValue
  match value with
  | .node nodec => some (.ofNode t d.resultDepth nodec)
  | .singleEntry identifier entry =>
    some ⟨identifier, if t.inPlaceNode d.resultDepth then .null else .unmanaged entry, true, true,
      d.resultDepth⟩
  | .value _ => none

/-- The value at the key whose parts are all the current one. -/
def currentScalar (d : HashDiagonal K V) : Option V := do
  let value ← d.currentValue
  match value with
  | .value v => some v
  | _ => none

def size : HashDiagonal K V → Option Nat
  | .fullNode d => d.size ns
  | .singleEntryNode d => some d.size

/-- How often `++` can be called before the diagonal has ended. -/
def remaining : HashDiagonal K V → Nat
  | .fullNode d => d.iter.length
  | .singleEntryNode d => if d.ended then 0 else 1

/-- The rest of the iteration, with at most so many increments. -/
def iterate : Nat → HashDiagonal K V → Option (List (K × SliceResult K V))
  | 0, d => if d.ended then some [] else none
  | fuel + 1, d =>
    if d.ended then some []
    else do
      let keyPart ← d.currentKeyPart
      let value ← d.currentValue
      let next ← d.inc t ns
      let rest ← iterate fuel next
      some ((keyPart, value) :: rest)

/-- A whole iteration. -/
def items (d : HashDiagonal K V) : Option (List (K × SliceResult K V)) := do
  let d ← d.begin t ns
  iterate t ns d.remaining d

/-- States of a diagonal between any calls. -/
inductive Reached (d₀ : HashDiagonal K V) : HashDiagonal K V → Prop where
  | new : Reached d₀ d₀
  | begin {d d' : HashDiagonal K V} : Reached d₀ d → d.begin t ns = some d' → Reached d₀ d'
  | inc {d d' : HashDiagonal K V} : Reached d₀ d → d.inc t ns = some d' → Reached d₀ d'
  | find {d d' : HashDiagonal K V} {keyPart : K} {found : Bool} :
      Reached d₀ d → d.find t ns keyPart = some (d', found) → Reached d₀ d'

end HashDiagonal

section Spec

variable {t : HypertrieTrait K V} {F : Nat → Finset (SingleEntry K V) → Prop}
variable {ns : NodeStorage M K V} {depth : Nat} {S : Finset (SingleEntry K V)}
variable {mask : RawKeyPositions}

omit [DecidableEq K] [DecidableEq V] [Inhabited K] in
theorem FullNode.nodup_children (n : FullNode M K V) (pos : Nat) :
    ((n.children depth pos).map Prod.fst).Nodup := by
  unfold children
  split
  · rw [List.map_map]
    exact nodup_keys n.values
  · rw [List.map_map]
    exact nodup_keys (n.edges pos)

/-- The children of a node: the value of each key at depth 1, the subset at each edge below. -/
theorem FullNode.Represents.children {n : FullNode M K V} (hn : n.Represents t depth S)
    (hd : 0 < depth) {pos : Nat} (hp : pos < depth) {keyPart : K} {child : V ⊕ RawIdentifier}
    (h : (keyPart, child) ∈ n.children depth pos) :
    (depth = 1 ∧ ∃ v, child = .inl v ∧ ⟨[keyPart], v⟩ ∈ S) ∨
      (1 < depth ∧ child = .inr (t.ident (depth - 1) (split S pos keyPart)) ∧
        (split S pos keyPart).Nonempty) := by
  unfold FullNode.children at h
  by_cases h1 : depth = 1
  · rw [if_pos h1] at h
    obtain ⟨⟨k, v⟩, hv, he⟩ := List.mem_map.mp h
    obtain ⟨rfl, rfl⟩ := Prod.mk.inj he
    exact Or.inl ⟨h1, v, rfl, (hn.values h1 k v).mp ((mem_entries _ _ _).mp hv)⟩
  · rw [if_neg h1] at h
    obtain ⟨⟨k, id⟩, hid, he⟩ := List.mem_map.mp h
    obtain ⟨rfl, rfl⟩ := Prod.mk.inj he
    have hf := (mem_entries _ _ _).mp hid
    rw [hn.edges (by omega) pos hp, childIdent_eq_some] at hf
    exact Or.inr ⟨by omega, by rw [hf.2], hf.1⟩

theorem FullNode.Represents.mem_children {n : FullNode M K V} (hn : n.Represents t depth S)
    (hset : IsEntrySet t depth S) (hd : 0 < depth) {pos : Nat} (hp : pos < depth) {keyPart : K}
    (h : keyPart ∈ keyParts S pos) : keyPart ∈ (n.children depth pos).map Prod.fst := by
  unfold FullNode.children
  by_cases h1 : depth = 1
  · rw [if_pos h1, List.map_map]
    obtain ⟨⟨key, v⟩, he, rfl⟩ := Finset.mem_image.mp h
    obtain ⟨k, rfl⟩ := List.length_eq_one_iff.mp ((hset.length _ he).trans h1)
    have hk : keyAt [k] pos = k := by
      obtain rfl : pos = 0 := by omega
      rfl
    have hv := (mem_entries n.values k v).mpr ((hn.values h1 k v).mpr he)
    exact List.mem_map.mpr ⟨(k, v), hv, hk.symm⟩
  · rw [if_neg h1, List.map_map]
    have hne := mem_keyParts.mp h
    have hf : UnorderedMap.find (n.edges pos) keyPart = some (t.ident (depth - 1) (split S pos keyPart)) := by
      rw [hn.edges (by omega) pos hp, childIdent_of_nonempty t _ hne]
    exact List.mem_map.mpr ⟨(keyPart, _), (mem_entries _ _ _).mpr hf, rfl⟩

namespace FullNodeDiagonal

/-- With a single position left at a node of depth 1, all variants read one value. -/
theorem retrieveSubdiagonalValue_ident (hr : Readable t F ns) {d : FullNodeDiagonal K V}
    {T : Finset (SingleEntry K V)} (hT : F (d.depth - 1) T) (hne : T.Nonempty)
    (hst : Stored t ns (d.depth - 1) T) (hl : d.subDiagPoss.length = d.depth - 1)
    (hc : 0 < d.subDiagPoss.count) (keyPart : K) :
    d.retrieveSubdiagonalValue t ns keyPart (.inr (t.ident (d.depth - 1) T)) =
      RawHypertrieContext.diagonalSlice t ns (d.depth - 1) (t.ident (d.depth - 1) T) d.subDiagPoss
        keyPart := by
  have hF := hr.inPlay
  have hid := lookup_ident hF (fun _ => hT) hst
  rw [retrieveSubdiagonalValue]
  by_cases hp : t.inPlaceNode (d.depth - 1) = true
  · have hd : d.depth - 1 = 1 := (HypertrieTrait.inPlaceNode_iff.mp hp).2.2
    have hle := d.subDiagPoss.count_le
    have h0 : ¬ d.subDiagPoss.count = 0 := by omega
    have hall : 1 = d.subDiagPoss.count := by omega
    have hseed : ¬ (t.ident (d.depth - 1) T).isEmpty = true := by
      simpa [RawIdentifier.isEmpty] using hF.ident_ne_seed hT hne
    rw [if_pos hp, RawHypertrieContext.diagonalSlice, if_neg h0]
    rw [hd] at hseed hp ⊢
    rw [if_pos hall]
    by_cases hs : t.isSen (t.ident 1 T) = true
    · rw [if_pos hs, RawHypertrieContext.get, if_pos hs, RawHypertrieContext.getSingleEntry,
        if_neg hseed, if_pos hp]
      rfl
    · rw [if_neg hs]
      rfl
  · rw [if_neg hp] at hid ⊢
    rw [hid]

omit [DecidableEq K] [DecidableEq V] [Inhabited K] in
theorem retrieveValue_congr {d d' : FullNodeDiagonal K V} (hd : d'.depth = d.depth)
    (hp : d'.diagPoss = d.diagPoss) (child : V ⊕ RawIdentifier) :
    d'.retrieveValue t ns child = d.retrieveValue t ns child := by
  cases child with
  | inl v => rfl
  | inr id =>
    have hres : d'.resultDepth = d.resultDepth := by rw [resultDepth, diagDepth, hd, hp]; rfl
    rw [retrieveValue, hres]
    rfl

omit [DecidableEq V] in
theorem retrieveSubdiagonalValue_congr {d d' : FullNodeDiagonal K V} (hd : d'.depth = d.depth)
    (hs : d'.subDiagPoss = d.subDiagPoss) (keyPart : K) (child : V ⊕ RawIdentifier) :
    d'.retrieveSubdiagonalValue t ns keyPart child = d.retrieveSubdiagonalValue t ns keyPart child := by
  cases child with
  | inl v => rfl
  | inr id =>
    rw [retrieveSubdiagonalValue, hd, hs]
    rfl

/-- The diagonal is over the node of the set `S`. -/
structure Over (t : HypertrieTrait K V) (F : Nat → Finset (SingleEntry K V) → Prop)
    (ns : NodeStorage M K V) (depth : Nat) (S : Finset (SingleEntry K V)) (mask : RawKeyPositions)
    (d : FullNodeDiagonal K V) : Prop where
  depth_eq : d.depth = depth
  nodec_eq : d.nodec = t.ident depth S
  diagPoss_eq : d.diagPoss = mask
  card : 2 ≤ S.card
  inPlay : F depth S
  stored : Stored t ns depth S

/-- A child that the iteration runs through: its value is the slice at its key part. -/
structure IsChild (t : HypertrieTrait K V) (F : Nat → Finset (SingleEntry K V) → Prop)
    (ns : NodeStorage M K V) (S : Finset (SingleEntry K V)) (d : FullNodeDiagonal K V)
    (child : K × (V ⊕ RawIdentifier)) : Prop where
  value : d.diagDepth < 2 → (d.retrieveValue t ns child.2).DiagonalHolds t F ns d.resultDepth
    (d.diagPoss.diagonal S child.1) ∧ (d.diagPoss.diagonal S child.1).Nonempty
  subdiagonal : 2 ≤ d.diagDepth → Ensures (d.retrieveSubdiagonalValue t ns child.1 child.2)
    (SliceResult.DiagonalHolds t F ns d.resultDepth (d.diagPoss.diagonal S child.1))

/-- An iterator over children that exposes the slice at the first of them. -/
structure Cursor (t : HypertrieTrait K V) (F : Nat → Finset (SingleEntry K V) → Prop)
    (ns : NodeStorage M K V) (S : Finset (SingleEntry K V)) (d : FullNodeDiagonal K V) : Prop where
  children : ∀ child ∈ d.iter, IsChild t F ns S d child
  current : ∀ child rest, d.iter = child :: rest → ∃ value, d.value = some value ∧
    value.DiagonalHolds t F ns d.resultDepth (d.diagPoss.diagonal S child.1) ∧
    (d.diagPoss.diagonal S child.1).Nonempty

variable {d d' : FullNodeDiagonal K V}

/-- A call changes nothing but the iterator and the value. -/
def SameDiagonal (d d' : FullNodeDiagonal K V) : Prop :=
  d'.depth = d.depth ∧ d'.nodec = d.nodec ∧ d'.diagPoss = d.diagPoss ∧ d'.subDiagPoss = d.subDiagPoss

omit [DecidableEq K] [DecidableEq V] in
theorem Over.congr (h : d.Over t F ns depth S mask) (hd : d'.depth = d.depth)
    (hn : d'.nodec = d.nodec) (hp : d'.diagPoss = d.diagPoss) : d'.Over t F ns depth S mask :=
  ⟨hd.trans h.depth_eq, hn.trans h.nodec_eq, hp.trans h.diagPoss_eq, h.card, h.inPlay, h.stored⟩

theorem IsChild.congr {child : K × (V ⊕ RawIdentifier)} (h : IsChild t F ns S d child)
    (hs : SameDiagonal d d') : IsChild t F ns S d' child := by
  obtain ⟨hd, -, hp, hsub⟩ := hs
  have hdiag : d'.diagDepth = d.diagDepth := by rw [diagDepth, hp, diagDepth]
  have hres : d'.resultDepth = d.resultDepth := by rw [resultDepth, hd, hdiag, resultDepth]
  refine ⟨fun h2 => ?_, fun h2 => ?_⟩
  · rw [retrieveValue_congr hd hp, hres, hp]
    exact h.value (hdiag ▸ h2)
  · rw [retrieveSubdiagonalValue_congr hd hsub, hres, hp]
    exact h.subdiagonal (hdiag ▸ h2)

theorem sameDiagonal_forwardUntilResult {children : List (K × (V ⊕ RawIdentifier))}
    (hf : d.forwardUntilResult t ns children = some d') : SameDiagonal d d' := by
  induction children generalizing d with
  | nil =>
    rw [forwardUntilResult, Option.some.injEq] at hf
    subst hf
    exact ⟨rfl, rfl, rfl, rfl⟩
  | cons child rest ih =>
    rw [forwardUntilResult] at hf
    split at hf
    · obtain ⟨value, -, hf⟩ := Option.bind_eq_some_iff.mp hf
      split at hf
      · rw [Option.some.injEq] at hf
        subst hf
        exact ⟨rfl, rfl, rfl, rfl⟩
      · obtain ⟨hd, hn, hp, hs⟩ := ih hf
        exact ⟨hd, hn, hp, hs⟩
    · rw [Option.some.injEq] at hf
      subst hf
      exact ⟨rfl, rfl, rfl, rfl⟩

/-- The iterator stops at the next child whose slice is not empty. -/
theorem forwardUntilResult_spec (hF : InPlay t F) (children : List (K × (V ⊕ RawIdentifier)))
    (hset : ∀ keyPart, IsEntrySet t d.resultDepth (d.diagPoss.diagonal S keyPart))
    (hc : ∀ child ∈ children, IsChild t F ns S d child) :
    Ensures (d.forwardUntilResult t ns children) (fun d' => SameDiagonal d d' ∧
      Cursor t F ns S d' ∧ d'.iter.length ≤ children.length ∧
      (d'.iter.map Prod.fst).filter (fun k => (d.diagPoss.diagonal S k).Nonempty) =
        (children.map Prod.fst).filter (fun k => (d.diagPoss.diagonal S k).Nonempty)) := by
  induction children generalizing d with
  | nil =>
    exact Ensures.pure ⟨⟨rfl, rfl, rfl, rfl⟩, ⟨by simp, by simp⟩, le_rfl, rfl⟩
  | cons child rest ih =>
    have hchild := hc child List.mem_cons_self
    rw [forwardUntilResult]
    by_cases h2 : 2 ≤ d.diagDepth
    · rw [if_pos h2]
      refine Ensures.bind (hchild.subdiagonal h2) fun value hvalue => ?_
      have hfound := hvalue.found_iff hF (hset child.1)
      by_cases hv : value.found t = true
      · rw [if_pos hv]
        have hsame : SameDiagonal d { d with iter := child :: rest, value := some value } :=
          ⟨rfl, rfl, rfl, rfl⟩
        refine Ensures.pure ⟨hsame, ⟨fun c hm => (hc c hm).congr hsame, ?_⟩, le_rfl, rfl⟩
        rintro _ _ he
        obtain ⟨rfl, -⟩ := List.cons.inj he
        exact ⟨value, rfl, hvalue, hfound.mp hv⟩
      · rw [if_neg hv]
        have hsame : SameDiagonal d { d with value := some value } := ⟨rfl, rfl, rfl, rfl⟩
        refine (ih (d := { d with value := some value }) hset fun c hm =>
          (hc c (List.mem_cons_of_mem _ hm)).congr hsame).mono ?_
        rintro d' ⟨hs, hcur, hlen, hkeys⟩
        refine ⟨hs, hcur, hlen.trans (Nat.le_succ _), ?_⟩
        rw [List.map_cons, List.filter_cons_of_neg (by simpa using fun h => hv (hfound.mpr h))]
        exact hkeys
    · rw [if_neg h2]
      have hsame : SameDiagonal d
          { d with iter := child :: rest, value := some (d.retrieveValue t ns child.2) } :=
        ⟨rfl, rfl, rfl, rfl⟩
      refine Ensures.pure ⟨hsame, ⟨fun c hm => (hc c hm).congr hsame, ?_⟩, le_rfl, rfl⟩
      rintro _ _ he
      obtain ⟨rfl, -⟩ := List.cons.inj he
      exact ⟨_, rfl, hchild.value (by omega)⟩

end FullNodeDiagonal

/-- From a cursor on, the iteration yields the slices at the remaining children that have one. -/
theorem HashDiagonal.iterate_spec (hF : InPlay t F) {d : FullNodeDiagonal K V} {fuel : Nat}
    (hset : ∀ keyPart, IsEntrySet t d.resultDepth (d.diagPoss.diagonal S keyPart))
    (hd : d.Cursor t F ns S) (hfuel : d.iter.length ≤ fuel) :
    Ensures (HashDiagonal.iterate t ns fuel (.fullNode d)) (fun items =>
      items.map Prod.fst =
        (d.iter.map Prod.fst).filter (fun k => (d.diagPoss.diagonal S k).Nonempty) ∧
      ∀ item ∈ items, item.2.DiagonalHolds t F ns d.resultDepth (d.diagPoss.diagonal S item.1)) := by
  induction fuel generalizing d with
  | zero =>
    have hnil : d.iter = [] := List.length_eq_zero_iff.mp (Nat.le_zero.mp hfuel)
    rw [iterate, if_pos (by simp [ended, FullNodeDiagonal.ended, hnil]), hnil]
    exact Ensures.pure ⟨rfl, by simp⟩
  | succ fuel ih =>
    cases hi : d.iter with
    | nil =>
      rw [iterate, if_pos (by simp [ended, FullNodeDiagonal.ended, hi])]
      exact Ensures.pure ⟨rfl, by simp⟩
    | cons child rest =>
      obtain ⟨value, hv, hholds, hne⟩ := hd.current child rest hi
      have hkey : currentKeyPart (.fullNode d) = some child.1 := by
        simp [currentKeyPart, FullNodeDiagonal.currentKeyPart, hi]
      have hvalue : currentValue (.fullNode d) = some value := hv
      rw [iterate, if_neg (by simp [ended, FullNodeDiagonal.ended, hi]), hkey, hvalue]
      simp only [Option.bind_eq_bind, Option.bind_some]
      have hrest : ∀ c ∈ rest, FullNodeDiagonal.IsChild t F ns S d c :=
        fun c hm => hd.children c (hi ▸ List.mem_cons_of_mem _ hm)
      have hinc := FullNodeDiagonal.forwardUntilResult_spec hF rest hset hrest
      rw [inc, FullNodeDiagonal.inc, hi, List.tail_cons]
      obtain ⟨d', hd', ⟨hdep, -, hp, -⟩, hcur, hlen, hkeys⟩ := hinc
      have hdiag : d'.diagDepth = d.diagDepth := by rw [FullNodeDiagonal.diagDepth, hp]; rfl
      have hres : d'.resultDepth = d.resultDepth := by
        rw [FullNodeDiagonal.resultDepth, hdep, hdiag]; rfl
      rw [hi, List.length_cons] at hfuel
      have ih := ih (d := d') (by rwa [hres, hp]) hcur (by omega)
      rw [hres, hp] at ih
      rw [hd', Option.map_some, Option.bind_some]
      refine Ensures.bind ih fun items hitems => Ensures.pure ⟨?_, ?_⟩
      · rw [List.map_cons, List.map_cons, List.filter_cons_of_pos (by simpa using hne), hitems.1, hkeys]
      · intro item hm
        rcases List.mem_cons.mp hm with rfl | hm
        · exact hholds
        · exact hitems.2 item hm

namespace FullNodeDiagonal

variable {d d' : FullNodeDiagonal K V}

omit [DecidableEq K] [DecidableEq V] in
theorem Over.resultDepth_eq (h : d.Over t F ns depth S mask) : d.resultDepth = depth - mask.count := by
  rw [resultDepth, diagDepth, h.depth_eq, h.diagPoss_eq]

theorem Over.isChild (hr : Readable t F ns) (h : d.Over t F ns depth S mask)
    (hl : mask.length = depth) (hc : 0 < mask.count) {n : FullNode M K V}
    (hn : n.Represents t depth S) {pos : Nat} (hpos : mask.isSet pos = true)
    (hsub : d.subDiagPoss = mask.subRawKeyPositions pos) {child : K × (V ⊕ RawIdentifier)}
    (hm : child ∈ n.children depth pos) : IsChild t F ns S d child := by
  obtain ⟨keyPart, child⟩ := child
  have hF := hr.inPlay
  have hset := hF.entrySet h.inPlay
  have hp := hl ▸ RawKeyPositions.lt_length_of_isSet hpos
  have hcount := RawKeyPositions.count_subRawKeyPositions hpos
  have hsplit := RawKeyPositions.diagonal_split hset hl hpos keyPart
  have hdiag : d.diagDepth = mask.count := by rw [diagDepth, h.diagPoss_eq]
  refine ⟨fun h2 => ?_, fun h2 => ?_⟩
  · rw [h.resultDepth_eq, h.diagPoss_eq, hsplit,
      RawKeyPositions.diagonal_of_count_zero (by omega) (split S pos keyPart)]
    rcases hn.children (by omega) hp hm with ⟨h1, v, rfl, hv⟩ | ⟨h1, rfl, hne⟩
    · obtain rfl : pos = 0 := by omega
      have hmem : (⟨[], v⟩ : SingleEntry K V) ∈ split S 0 keyPart := mem_split.mpr ⟨_, hv, rfl, rfl⟩
      have hone : (if t.isBoolValued then t.one else v) = v := by
        have := HypertrieTrait.makeEntry_of_ne_zero t [keyPart] (hset.value _ hv)
        simpa [HypertrieTrait.makeEntry] using congrArg SingleEntry.value this
      rw [retrieveValue, hone]
      exact ⟨⟨by omega, Or.inl hmem⟩, ⟨_, hmem⟩⟩
    · have hSF : F (depth - 1) (split S pos keyPart) := hF.split h.inPlay h.card hp h1 hne
      have hchild := hr.children depth h1 S h.inPlay h.card (h.stored.fn h.card) pos hp keyPart
      have hres : d.resultDepth = depth - 1 := by
        rw [h.resultDepth_eq]
        omega
      rw [retrieveValue, hres, lookup_ident hF (fun _ => hSF) hchild,
        show depth - mask.count = depth - 1 by omega]
      exact ⟨⟨by omega, rfl, Or.inl ⟨fun _ => hSF, hchild⟩⟩, hne⟩
  · have hle := mask.count_le
    rcases hn.children (by omega) hp hm with ⟨h1, -⟩ | ⟨h1, rfl, hne⟩
    · omega
    have hlen := RawKeyPositions.length_subRawKeyPositions hpos
    have hSF : F (depth - 1) (split S pos keyPart) := hF.split h.inPlay h.card hp h1 hne
    have hchild := hr.children depth h1 S h.inPlay h.card (h.stored.fn h.card) pos hp keyPart
    have hident := retrieveSubdiagonalValue_ident hr (d := d) (T := split S pos keyPart)
      (by rwa [h.depth_eq]) hne (by rwa [h.depth_eq]) (by rw [hsub, h.depth_eq]; omega)
      (by rw [hsub]; omega) keyPart
    rw [h.depth_eq] at hident
    rw [hident, hsub, h.resultDepth_eq, h.diagPoss_eq, hsplit,
      show depth - mask.count = depth - 1 - (mask.subRawKeyPositions pos).count by omega]
    exact diagonalSlice_spec hr (by omega) (hset.split hp keyPart) (Or.inl ⟨fun _ => hSF, hchild⟩)
      (by omega) keyPart

omit [DecidableEq K] [DecidableEq V] in
theorem Over.isSet_minCardPos (h : d.Over t F ns depth S mask) (hl : mask.length = depth)
    (hc : 0 < mask.count) (n : FullNode M K V) : mask.isSet (d.minCardPos n) = true := by
  rw [minCardPos, h.depth_eq, h.diagPoss_eq]
  split
  next h1 =>
    have hfirst := RawKeyPositions.isSet_firstPos hc
    have := RawKeyPositions.lt_length_of_isSet hfirst
    rwa [show mask.firstPos = 0 by omega] at hfirst
  next h1 => exact n.isSet_minCardPosMask hl hc

theorem Over.represents (hr : Readable t F ns) (h : d.Over t F ns depth S mask) :
    ∃ n, UnorderedMap.find (ns.fns depth) (t.ident depth S) = some n ∧ n.Represents t depth S := by
  obtain ⟨n, hn⟩ := contains_iff.mp (h.stored.fn h.card)
  exact ⟨n, hn, (hr.nodes depth).represents hr.inPlay h.inPlay hn⟩

/-- `begin` stops at the first child with a slice; those behind it include all that have one. -/
theorem Over.begin_spec (hr : Readable t F ns) (h : d.Over t F ns depth S mask)
    (hl : mask.length = depth) (hc : 0 < mask.count) :
    Ensures (d.begin t ns) (fun d' => d'.Over t F ns depth S mask ∧ Cursor t F ns S d' ∧
      ((d'.iter.map Prod.fst).filter (fun k => (mask.diagonal S k).Nonempty)).Nodup ∧
      ∀ k, (mask.diagonal S k).Nonempty → k ∈ d'.iter.map Prod.fst) := by
  obtain ⟨n, hn, hrep⟩ := h.represents hr
  have hset := hr.inPlay.entrySet h.inPlay
  have hpos := h.isSet_minCardPos hl hc n
  have hp := hl ▸ RawKeyPositions.lt_length_of_isSet hpos
  have hover : ({ d with subDiagPoss := d.diagPoss.subRawKeyPositions (d.minCardPos n) } :
      FullNodeDiagonal K V).Over t F ns depth S mask := h.congr rfl rfl rfl
  have hsets : ∀ keyPart, IsEntrySet t d.resultDepth (d.diagPoss.diagonal S keyPart) := by
    intro keyPart
    rw [h.resultDepth_eq, h.diagPoss_eq]
    exact RawKeyPositions.isEntrySet_diagonal hset hl keyPart
  have hchildren : ∀ child ∈ n.children d.depth (d.minCardPos n), IsChild t F ns S
      { d with subDiagPoss := d.diagPoss.subRawKeyPositions (d.minCardPos n) } child := by
    intro child hm
    rw [h.depth_eq] at hm
    exact hover.isChild hr hl hc hrep hpos (by rw [h.diagPoss_eq]) hm
  have hnode : UnorderedMap.find (ns.fns d.depth) d.nodec = some n := by
    rw [h.depth_eq, h.nodec_eq, hn]
  rw [begin, hnode]
  simp only [Option.bind_eq_bind, Option.bind_some]
  refine (forwardUntilResult_spec hr.inPlay
    (d := { d with subDiagPoss := d.diagPoss.subRawKeyPositions (d.minCardPos n) }) _ hsets
    hchildren).mono ?_
  rintro d' ⟨⟨hd, hid, hdiag, -⟩, hcur, -, hkeys⟩
  rw [h.diagPoss_eq, h.depth_eq] at hkeys
  refine ⟨hover.congr hd hid hdiag, hcur, ?_, fun k hk => ?_⟩
  · rw [hkeys]
    exact (n.nodup_children _).filter _
  · have hmem := hrep.mem_children hset (by omega) hp
      (RawKeyPositions.mem_keyParts_of_nonempty hset hl hpos hk)
    have : k ∈ (d'.iter.map Prod.fst).filter (fun k => (mask.diagonal S k).Nonempty) := by
      rw [hkeys]
      exact List.mem_filter.mpr ⟨hmem, by simpa using hk⟩
    exact (List.mem_filter.mp this).1

theorem Over.size_spec (hr : Readable t F ns) (h : d.Over t F ns depth S mask)
    (hl : mask.length = depth) (hc : 0 < mask.count) :
    Ensures (d.size ns) (fun n => (mask.diagonalKeys S).card ≤ n) := by
  obtain ⟨n, hn, hrep⟩ := h.represents hr
  have hne := Finset.card_pos.mp (by have := h.card; omega : 0 < S.card)
  have hset := hr.inPlay.entrySet h.inPlay
  have hseed := hr.inPlay.ident_ne_seed h.inPlay hne
  have hpos := h.isSet_minCardPos hl hc n
  have hp := hl ▸ RawKeyPositions.lt_length_of_isSet hpos
  have hsub : mask.diagonalKeys S ⊆ ((n.children depth (d.minCardPos n)).map Prod.fst).toFinset := by
    intro k hk
    rw [RawKeyPositions.mem_diagonalKeys hset hl hc] at hk
    exact List.mem_toFinset.mpr (hrep.mem_children hset (by omega) hp
      (RawKeyPositions.mem_keyParts_of_nonempty hset hl hpos hk))
  have hcard := (Finset.card_le_card hsub).trans (List.toFinset_card_le _)
  rw [size, h.nodec_eq, h.depth_eq, if_neg (by simpa [RawIdentifier.isEmpty] using hseed), hn]
  refine Ensures.pure (hcard.trans ?_)
  rw [List.length_map, FullNode.children, minCardPos, h.depth_eq, h.diagPoss_eq]
  split
  next h1 => simp [FullNode.size, h1, UnorderedMap.size]
  next h1 => simp [UnorderedMap.size]

end FullNodeDiagonal

namespace SingleEntryDiagonal

/-- The diagonal is over the single entry of the set `S`. -/
structure Over (t : HypertrieTrait K V) (F : Nat → Finset (SingleEntry K V) → Prop)
    (ns : NodeStorage M K V) (depth : Nat) (S : Finset (SingleEntry K V)) (mask : RawKeyPositions)
    (d : SingleEntryDiagonal K V) : Prop where
  resultDepth_eq : d.resultDepth = depth - mask.count
  isDiagonal_iff : d.isDiagonal = true ↔ (mask.diagonal S d.keyPart).Nonempty
  keyPart : ∀ k, (mask.diagonal S k).Nonempty → k = d.keyPart
  value : d.isDiagonal = true → ∃ value, d.value = some value ∧
    value.DiagonalHolds t F ns (depth - mask.count) (mask.diagonal S d.keyPart)
  ended : d.isDiagonal = false → d.ended = true

theorem new_spec {e : SingleEntry K V} (hset : IsEntrySet t depth {e})
    {entry : Option (SingleEntry K V)} (hentry : t.inPlaceNode depth = false → entry = some e)
    (hl : mask.length = depth) (hc : 0 < mask.count) :
    Ensures (SingleEntryDiagonal.new t depth (t.ident depth {e}) entry mask)
      (Over t F ns depth {e} mask) := by
  have hlen := hset.length e (Finset.mem_singleton_self e)
  have hval : (if t.isBoolValued then t.one else e.value) = e.value := by
    have := HypertrieTrait.makeEntry_of_ne_zero t e.key (hset.value e (Finset.mem_singleton_self e))
    simpa [HypertrieTrait.makeEntry] using congrArg SingleEntry.value this
  have hle := mask.count_le
  have hkey : ∀ k, (mask.diagonal {e} k).Nonempty → k = keyAt e.key mask.firstPos := by
    intro k hk
    have := RawKeyPositions.mem_keyParts_of_nonempty hset hl (RawKeyPositions.isSet_firstPos hc) hk
    simpa [keyParts] using this
  have hdiag := diagonal_singleton (hlen.trans hl.symm) (keyAt e.key mask.firstPos)
  rw [SingleEntryDiagonal.new]
  by_cases hp : t.inPlaceNode depth = true
  · obtain ⟨hb, -, h1⟩ := HypertrieTrait.inPlaceNode_iff.mp hp
    have hfirst : mask.firstPos = 0 := by
      have := RawKeyPositions.lt_length_of_isSet (RawKeyPositions.isSet_firstPos hc)
      omega
    obtain ⟨k, hk⟩ := List.length_eq_one_iff.mp (hlen.trans h1)
    obtain ⟨isSet, rfl⟩ := List.length_eq_one_iff.mp (hl.trans h1)
    obtain rfl : isSet = true := by
      cases isSet with
      | true => rfl
      | false => exact absurd hc (by decide)
    have hdiag : RawKeyPositions.diagonal [true] {e} (keyAt e.key 0) = {⟨[], e.value⟩} := by
      rw [← hfirst, hdiag, hfirst, hk]
      simp [RawKeyPositions.slice, keyAt]
    rw [if_pos hp, HypertrieTrait.getEntry_ident_singleton hp hset]
    rw [hfirst] at hkey
    refine Ensures.pure ⟨rfl, ⟨fun _ => ?_, fun _ => rfl⟩, hkey, fun _ => ⟨_, rfl, ?_⟩,
      fun h => Bool.noConfusion h⟩
    · rw [hdiag]
      exact Finset.singleton_nonempty _
    · rw [hdiag]
      refine ⟨by omega, Or.inl (Finset.mem_singleton.mpr ?_)⟩
      rw [← hval, hb]
      rfl
  · rw [if_neg hp, hentry (by simpa using hp)]
    simp only [Option.bind_eq_bind, Option.bind_some]
    cases hs : mask.slice e.key (keyAt e.key mask.firstPos) with
    | none =>
      rw [hs] at hdiag
      exact Ensures.pure ⟨rfl, by simp [hdiag], hkey, fun h => Bool.noConfusion h, fun _ => rfl⟩
    | some key =>
      rw [hs] at hdiag
      have hset' := RawKeyPositions.isEntrySet_diagonal hset hl (keyAt e.key mask.firstPos)
      rw [hdiag] at hset'
      have hklen : key.length = depth - mask.count :=
        hset'.length ⟨key, e.value⟩ (Finset.mem_singleton_self _)
      by_cases hall : depth - mask.count = 0
      · have hnil : key = [] := List.length_eq_zero_iff.mp (by omega)
        simp only [if_pos hall, hval]
        refine Ensures.pure ⟨rfl, by simp [hdiag], hkey, fun _ => ⟨_, rfl, by omega, Or.inl ?_⟩,
          fun h => Bool.noConfusion h⟩
        rw [hdiag, hnil]
        exact Finset.mem_singleton_self _
      · simp only [if_neg hall]
        refine Ensures.pure ⟨rfl, by simp [hdiag], hkey, fun _ => ⟨_, rfl, by omega, hdiag, ?_⟩,
          fun h => Bool.noConfusion h⟩
        exact (HypertrieTrait.ident_singleton _).symm

end SingleEntryDiagonal

/-- A hypertrie with more than one entry has a full node. -/
theorem ConstHypertrie.exists_fullNode (hr : Readable t F ns) {h : ConstHypertrie K V}
    (hh : h.Holds t F ns S) (hd : 0 < h.depth) (h2 : 2 ≤ S.card) : h.contextless = false ∧
      ∃ n, find (ns.fns h.depth) h.nodeIdentifier = some n ∧ n.Represents t h.depth S := by
  have hne : S.Nonempty := Finset.card_pos.mp (by omega)
  rw [hh.ident hd]
  cases hc : h.contextless with
  | true =>
    rcases hh.own hd hc with rfl | ⟨e, rfl, -⟩
    · exact absurd hne (by simp)
    · rw [Finset.card_singleton] at h2
      omega
  | false =>
    rcases hh.held hd hc with ⟨hF, hst⟩ | ⟨-, e, rfl⟩
    · obtain ⟨n, hn⟩ := contains_iff.mp (hst.fn h2)
      exact ⟨rfl, n, hn, (hr.nodes h.depth).represents hr.inPlay (hF hne) hn⟩
    · rw [Finset.card_singleton] at h2
      omega

/-- The size of a hypertrie is the number of its entries. -/
theorem ConstHypertrie.size_spec (hr : Readable t F ns) {h : ConstHypertrie K V}
    (hh : h.Holds t F ns S) (hd : 0 < h.depth) : Ensures (h.size t ns) (· = S.card) := by
  rw [ConstHypertrie.size]
  by_cases he : h.empty = true
  · rw [if_pos he, hh.empty_iff.mp he]
    exact Ensures.pure rfl
  have hne : S.Nonempty := Finset.nonempty_iff_ne_empty.mpr fun h0 => he (hh.empty_iff.mpr h0)
  have hident := hh.ident hd
  rw [if_neg he]
  by_cases h1 : S.card = 1
  · have hs := HypertrieTrait.isSen_ident_iff (t := t) (d := h.depth) (S := S) |>.mpr h1
    rw [if_pos (by simp [hident, hs]), h1]
    exact Ensures.pure rfl
  have hs : ¬ t.isSen (t.ident h.depth S) = true := fun hs => h1 (HypertrieTrait.isSen_ident_iff.mp hs)
  have hpos := hne.card_pos
  obtain ⟨hc, n, hn, hrep⟩ := ConstHypertrie.exists_fullNode hr hh hd (by omega)
  rw [if_neg (by simp [hident, hd.ne', hs]), hc, if_neg Bool.false_ne_true, hn]
  exact Ensures.pure hrep.size

namespace HashDiagonal

/-- The diagonal is over the set `S`. -/
def Over (t : HypertrieTrait K V) (F : Nat → Finset (SingleEntry K V) → Prop)
    (ns : NodeStorage M K V) (depth : Nat) (S : Finset (SingleEntry K V)) (mask : RawKeyPositions) :
    HashDiagonal K V → Prop
  | .fullNode d => d.Over t F ns depth S mask
  | .singleEntryNode d => d.Over t F ns depth S mask

variable {h : ConstHypertrie K V} {d d' : HashDiagonal K V}

theorem new_spec (hr : Readable t F ns) (hh : h.Holds t F ns S) (hne : S.Nonempty) (hd : 0 < h.depth)
    (hl : mask.length = h.depth) (hc : 0 < mask.count) :
    Ensures (HashDiagonal.new t ns h mask) (Over t F ns h.depth S mask) := by
  rw [HashDiagonal.new]
  refine Ensures.bind (h.size_spec hr hh hd) ?_
  rintro _ rfl
  rw [hh.ident hd]
  by_cases h2 : 1 < S.card
  · have hctx : h.contextless = false := by
      by_contra hc
      rcases hh.own hd (by simpa using hc) with rfl | ⟨e, rfl, -⟩
      · simp at h2
      · simp at h2
    rw [if_pos h2]
    rcases hh.held hd hctx with ⟨hF, hst⟩ | ⟨-, e, rfl⟩
    · exact Ensures.pure ⟨rfl, rfl, rfl, h2, hF hne, hst⟩
    · simp at h2
  · obtain ⟨e, rfl⟩ := Finset.card_eq_one.mp (by have := hne.card_pos; omega : S.card = 1)
    rw [if_neg h2]
    refine Ensures.map ((SingleEntryDiagonal.new_spec hh.entrySet (fun hp => ?_) hl hc).mono
      fun d hd => hd)
    rw [ConstHypertrie.singleEntry]
    cases hctx : h.contextless with
    | true =>
      rcases hh.own hd hctx with h0 | ⟨e', he', hptr⟩
      · simp at h0
      · rw [if_pos rfl, hptr hp, ← Finset.singleton_inj.mp he']
        rfl
    | false =>
      rcases hh.held hd hctx with ⟨hF, hst⟩ | ⟨hplace, -⟩
      · rw [if_neg (by simp), hh.ident hd]
        exact storedEntry_of_stored hr.inPlay (hr.nodes _) (hF hne) hst hp
      · rw [hp] at hplace
        cases hplace

/-- No call changes what the diagonal is over. -/
theorem Over.reached (ho : d.Over t F ns depth S mask) (hreach : Reached t ns d d') :
    d'.Over t F ns depth S mask := by
  induction hreach with
  | new => exact ho
  | @begin d₁ d₂ _ hb ih =>
    cases d₁ with
    | fullNode d₁ =>
      obtain ⟨d₂, hb', rfl⟩ := Option.map_eq_some_iff.mp hb
      obtain ⟨node, -, hf⟩ := Option.bind_eq_some_iff.mp hb'
      obtain ⟨hdep, hid, hp, -⟩ := FullNodeDiagonal.sameDiagonal_forwardUntilResult hf
      exact FullNodeDiagonal.Over.congr ih hdep hid hp
    | singleEntryNode d₁ =>
      rw [begin, Option.some.injEq] at hb
      subst hb
      have ih : d₁.Over t F ns depth S mask := ih
      show d₁.begin.Over t F ns depth S mask
      rw [SingleEntryDiagonal.begin]
      split
      next hdiag =>
        exact ⟨ih.resultDepth_eq, ih.isDiagonal_iff, ih.keyPart, ih.value,
          fun hn => by simp [hdiag] at hn⟩
      next hdiag => exact ih
  | @inc d₁ d₂ _ hi ih =>
    cases d₁ with
    | fullNode d₁ =>
      obtain ⟨d₂, hf, rfl⟩ := Option.map_eq_some_iff.mp hi
      obtain ⟨hdep, hid, hp, -⟩ := FullNodeDiagonal.sameDiagonal_forwardUntilResult hf
      exact FullNodeDiagonal.Over.congr ih hdep hid hp
    | singleEntryNode d₁ =>
      rw [inc, Option.some.injEq] at hi
      subst hi
      have ih : d₁.Over t F ns depth S mask := ih
      exact ⟨ih.resultDepth_eq, ih.isDiagonal_iff, ih.keyPart, ih.value, fun _ => rfl⟩
  | @find d₁ d₂ keyPart found _ hf ih =>
    cases d₁ with
    | fullNode d₁ =>
      obtain ⟨⟨d₃, found'⟩, hf, he⟩ := Option.map_eq_some_iff.mp hf
      obtain ⟨value, -, hf⟩ := Option.bind_eq_some_iff.mp hf
      simp only [Option.some.injEq, Prod.mk.injEq] at hf he
      rw [← he.1, ← hf.1]
      exact FullNodeDiagonal.Over.congr ih rfl rfl rfl
    | singleEntryNode d₁ =>
      simp only [find, Option.some.injEq, Prod.mk.injEq] at hf
      rw [← hf.1]
      exact ih

/-- An iteration yields each key part of the diagonal once, with its slice. -/
theorem Over.items_spec (hr : Readable t F ns) (ho : d.Over t F ns depth S mask)
    (hset : IsEntrySet t depth S) (hl : mask.length = depth) (hc : 0 < mask.count) :
    Ensures (d.items t ns) (fun items => (items.map Prod.fst).Nodup ∧
      (∀ k, k ∈ items.map Prod.fst ↔ k ∈ mask.diagonalKeys S) ∧
      ∀ item ∈ items, item.2.DiagonalHolds t F ns (depth - mask.count) (mask.diagonal S item.1)) := by
  rw [items]
  cases d with
  | fullNode d =>
    have ho : d.Over t F ns depth S mask := ho
    obtain ⟨d', hb, ho', hcur, hnodup, hall⟩ := ho.begin_spec hr hl hc
    have hiter := iterate_spec hr.inPlay (d := d') (fun keyPart => by
      rw [ho'.resultDepth_eq, ho'.diagPoss_eq]
      exact RawKeyPositions.isEntrySet_diagonal hset hl keyPart) hcur (le_refl d'.iter.length)
    rw [begin, hb]
    refine hiter.mono ?_
    rintro items ⟨hkeys, hholds⟩
    rw [ho'.diagPoss_eq] at hkeys
    refine ⟨hkeys ▸ hnodup, fun k => ?_, fun item hm => ?_⟩
    · rw [hkeys, RawKeyPositions.mem_diagonalKeys hset hl hc, List.mem_filter, decide_eq_true_eq]
      exact and_iff_right_of_imp (hall k)
    · have := hholds item hm
      rwa [ho'.resultDepth_eq, ho'.diagPoss_eq] at this
  | singleEntryNode d =>
    have ho : d.Over t F ns depth S mask := ho
    rw [begin, SingleEntryDiagonal.begin]
    simp only [Option.bind_eq_bind, Option.bind_some]
    by_cases hdiag : d.isDiagonal = true
    · obtain ⟨value, hv, hholds⟩ := ho.value hdiag
      rw [if_pos hdiag]
      have hone : iterate t ns 1 (.singleEntryNode { d with ended := false }) =
          some [(d.keyPart, value)] := by
        simp [iterate, ended, currentKeyPart, currentValue, hv, inc, SingleEntryDiagonal.inc]
      have hrem : remaining (.singleEntryNode { d with ended := false }) = 1 := rfl
      rw [hrem, hone]
      refine Ensures.pure ⟨List.nodup_singleton _, fun k => ?_, fun item hm => ?_⟩
      · rw [RawKeyPositions.mem_diagonalKeys hset hl hc]
        refine ⟨fun hk => ?_, fun hk => by simpa using ho.keyPart k hk⟩
        obtain rfl : k = d.keyPart := by simpa using hk
        exact ho.isDiagonal_iff.mp hdiag
      · obtain rfl := List.mem_singleton.mp hm
        exact hholds
    · have hend := ho.ended (by simpa using hdiag)
      have hrem : remaining (.singleEntryNode d) = 0 := by simp [remaining, hend]
      rw [if_neg hdiag, hrem, iterate, if_pos (by simp [ended, hend])]
      refine Ensures.pure ⟨List.nodup_nil, fun k => ?_, by simp⟩
      rw [RawKeyPositions.mem_diagonalKeys hset hl hc]
      refine ⟨fun hk => by simp at hk, fun hk => ?_⟩
      rw [ho.keyPart k hk] at hk
      exact absurd (ho.isDiagonal_iff.mpr hk) hdiag

/-- `find` tells whether a key part has a slice, and exposes it. -/
theorem Over.find_spec (hr : Readable t F ns) (ho : d.Over t F ns depth S mask)
    (hset : IsEntrySet t depth S) (hd : 0 < depth) (hl : mask.length = depth) (hc : 0 < mask.count)
    (keyPart : K) : Ensures (d.find t ns keyPart) (fun res =>
      (res.2 = true ↔ keyPart ∈ mask.diagonalKeys S) ∧
      (res.2 = true → ∃ value, res.1.currentValue = some value ∧
        value.DiagonalHolds t F ns (depth - mask.count) (mask.diagonal S keyPart))) := by
  rw [RawKeyPositions.mem_diagonalKeys hset hl hc]
  cases d with
  | fullNode d =>
    have ho : d.Over t F ns depth S mask := ho
    rw [find, FullNodeDiagonal.find, ho.depth_eq, ho.nodec_eq, ho.diagPoss_eq]
    refine Ensures.map (Ensures.bind (diagonalSlice_spec hr hd hset
      (Or.inl ⟨fun _ => ho.inPlay, ho.stored⟩) hl keyPart) fun value hvalue => Ensures.pure ⟨?_, ?_⟩)
    · exact hvalue.found_iff hr.inPlay (RawKeyPositions.isEntrySet_diagonal hset hl keyPart)
    · exact fun _ => ⟨value, rfl, hvalue⟩
  | singleEntryNode d =>
    have ho : d.Over t F ns depth S mask := ho
    rw [find, SingleEntryDiagonal.find]
    refine Ensures.pure ⟨?_, fun hfound => ?_⟩
    · rw [Bool.and_eq_true, beq_iff_eq]
      constructor
      · rintro ⟨hdiag, rfl⟩
        exact ho.isDiagonal_iff.mp hdiag
      · intro hk
        obtain rfl := ho.keyPart keyPart hk
        exact ⟨ho.isDiagonal_iff.mpr hk, rfl⟩
    · rw [Bool.and_eq_true, beq_iff_eq] at hfound
      obtain ⟨hdiag, rfl⟩ := hfound
      exact ho.value hdiag

theorem Over.size_spec (hr : Readable t F ns) (ho : d.Over t F ns depth S mask)
    (hset : IsEntrySet t depth S) (hl : mask.length = depth) (hc : 0 < mask.count) :
    Ensures (d.size ns) (fun n => (mask.diagonalKeys S).card ≤ n) := by
  cases d with
  | fullNode d =>
    have ho : d.Over t F ns depth S mask := ho
    exact ho.size_spec hr hl hc
  | singleEntryNode d =>
    have ho : d.Over t F ns depth S mask := ho
    have hsub : mask.diagonalKeys S ⊆ {d.keyPart} := by
      intro k hk
      rw [RawKeyPositions.mem_diagonalKeys hset hl hc] at hk
      exact Finset.mem_singleton.mpr (ho.keyPart k hk)
    refine Ensures.pure ?_
    rw [SingleEntryDiagonal.size]
    split
    next hdiag => exact (Finset.card_le_card hsub).trans (Finset.card_singleton _).le
    next hdiag =>
      refine (Finset.card_eq_zero.mpr (Finset.eq_empty_iff_forall_notMem.mpr fun k hk => ?_)).le
      rw [RawKeyPositions.mem_diagonalKeys hset hl hc] at hk
      rw [ho.keyPart k hk] at hk
      exact hdiag (ho.isDiagonal_iff.mpr hk)

end HashDiagonal

end Spec

section DiagonalProperty

variable {t : HypertrieTrait K V} {F : Nat → Finset (SingleEntry K V) → Prop}
variable {ns : NodeStorage M K V} {roots : Multiset (Root K V)} {h : ConstHypertrie K V}
  {S : Finset (SingleEntry K V)} {mask : RawKeyPositions}

/-- A diagonal of the set `S` in any state it can be brought to: what an iteration yields, what
`find` returns and exposes, and the size. -/
structure DiagonalExact (t : HypertrieTrait K V) (F : Nat → Finset (SingleEntry K V) → Prop)
    (ns : NodeStorage M K V) (depth : Nat) (S : Finset (SingleEntry K V)) (mask : RawKeyPositions)
    (d : HashDiagonal K V) : Prop where
  items : Ensures (d.items t ns) (fun items => (items.map Prod.fst).Nodup ∧
    (∀ k, k ∈ items.map Prod.fst ↔ k ∈ mask.diagonalKeys S) ∧
    ∀ item ∈ items, item.2.DiagonalHolds t F ns (depth - mask.count) (mask.diagonal S item.1))
  find : ∀ keyPart, Ensures (d.find t ns keyPart) (fun res =>
    (res.2 = true ↔ keyPart ∈ mask.diagonalKeys S) ∧
    (res.2 = true → ∃ value, res.1.currentValue = some value ∧
      value.DiagonalHolds t F ns (depth - mask.count) (mask.diagonal S keyPart)))
  size : Ensures (d.size ns) (fun n => (mask.diagonalKeys S).card ≤ n)

/-- Diagonals are exact, over full nodes and over single entries. -/
theorem diagonal_exact (hc : Canonical t ns roots) (hn : NoCollision t roots)
    (hh : h.Holds t (Live roots) ns S) (hne : S.Nonempty) (hd : 0 < h.depth)
    (hl : mask.length = h.depth) (hcount : 0 < mask.count) :
    Ensures (HashDiagonal.new t ns h mask) (fun d => ∀ d', HashDiagonal.Reached t ns d d' →
      DiagonalExact t (Live roots) ns h.depth S mask d') := by
  have hr := hc.readable hn
  refine (HashDiagonal.new_spec hr hh hne hd hl hcount).mono fun d ho d' hreach => ?_
  have ho' := ho.reached hreach
  exact ⟨ho'.items_spec hr hh.entrySet hl hcount,
    fun keyPart => ho'.find_spec hr hh.entrySet hd hl hcount keyPart,
    ho'.size_spec hr hh.entrySet hl hcount⟩

/-- The key part 7 is at both positions of one of two entries. -/
theorem diagonal_exact_seven : ∃ ns : NodeStorage AssocMap (BitVec 64) Bool,
    Ensures (HashDiagonal.new defaultBoolTrait ns (ConstHypertrie.ofNode defaultBoolTrait 2
      (defaultBoolTrait.ident 2 {⟨[7, 7], true⟩, ⟨[7, 8], true⟩})) [true, true])
      (fun d => ∀ d', HashDiagonal.Reached defaultBoolTrait ns d d' →
        DiagonalExact defaultBoolTrait (Live {⟨2, {⟨[7, 7], true⟩, ⟨[7, 8], true⟩}⟩}) ns 2
          {⟨[7, 7], true⟩, ⟨[7, 8], true⟩} [true, true] d') := by
  have hr : RootsOk defaultBoolTrait {⟨2, {⟨[7, 7], true⟩, ⟨[7, 8], true⟩}⟩} := by
    intro r hr
    obtain rfl := Multiset.mem_singleton.mp hr
    exact ⟨by decide, by decide, by decide, by decide⟩
  have hn : NoCollision defaultBoolTrait {⟨2, {⟨[7, 7], true⟩, ⟨[7, 8], true⟩}⟩} :=
    noCollision_of_liveSets (by decide +kernel) (by decide +kernel)
  obtain ⟨ns, hc⟩ := exists_canonical (M := AssocMap) hr hn
  have hh := hc.root_holds hn (Multiset.mem_singleton_self _)
  exact ⟨ns, diagonal_exact hc hn hh ⟨⟨[7, 7], true⟩, by decide⟩ Nat.two_pos rfl (by decide)⟩

end DiagonalProperty

end Hypertrie
