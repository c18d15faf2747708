import Hypertrie.UpdateSpec

/-! The raw context: reading, setting, inserting and removing entries below a
node, and counting the handles that hold it. A node container is the identifier
of its node; one without a node is empty. -/

namespace Hypertrie

open UnorderedMap

variable {M : Type → Type → Type} [UnorderedMap M] {K V : Type}

namespace FullNode

/-- `min_card_pos`: the first of all positions with the fewest edges. -/
def minCardPos (depth : Nat) (n : FullNode M K V) : Nat :=
  if depth = 1 then 0 else n.minCardPosOf depth (List.range depth) 0

theorem minCardPos_lt {depth : Nat} (n : FullNode M K V) (h : 0 < depth) :
    n.minCardPos depth < depth := by
  unfold minCardPos
  split
  next h1 => omega
  next h1 =>
    have hne : List.range depth ≠ [] := by
      rw [Ne, List.range_eq_nil]
      omega
    exact List.mem_range.mp (n.minCardPosOf_mem 0 hne)

end FullNode

variable [DecidableEq K] [Inhabited K]

namespace RawHypertrieContext

variable (t : HypertrieTrait K V) (ns : NodeStorage M K V)

/-- The child of a full node; without a child the result is empty. -/
def resolve (depth : Nat) (node : FullNode M K V) (pos : Nat) (keyPart : K) : RawIdentifier :=
  let childId := (find (node.edges pos) keyPart).getD seed
  if t.inPlaceNode (depth - 1) then childId else ns.lookup t (depth - 1) childId

/-- The value at a node of depth 1. -/
def resolveValue (node : FullNode M K V) (keyPart : K) : V :=
  (find node.values keyPart).getD t.zero

/-- `entry` is what the node pointer of the container leads to; entries in place have none. -/
def getSingleEntry (depth : Nat) (nodec : RawIdentifier) (entry : Option (SingleEntry K V))
    (key : List K) : Option V :=
  if nodec.isEmpty then some t.zero
  else if t.inPlaceNode depth then
    some (if keyAt (t.getEntry nodec).key 0 = keyAt key 0 then t.one else t.zero)
  else do
    let entry ← entry
    if entry.key = key then some (if t.isBoolValued then t.one else entry.value)
    else some t.zero

/-- The entry of a stored single-entry node. -/
def storedEntry (depth : Nat) (nodec : RawIdentifier) : Option (SingleEntry K V) :=
  (find (ns.sens depth) nodec).map SingleEntryNode.entry

/-- The value of a key; 0 if there is no entry for it. -/
def get : Nat → RawIdentifier → List K → Option V
  | 0, _, _ => none
  | depth + 1, nodec, key =>
    if t.isSen nodec then
      getSingleEntry t (depth + 1) nodec (storedEntry ns (depth + 1) nodec) key
    else if nodec.isEmpty then some t.zero
    else do
      let node ← find (ns.fns (depth + 1)) nodec
      if depth = 0 then some (resolveValue t node (keyAt key 0))
      else
        let pos := node.minCardPos (depth + 1)
        get depth (resolve t ns (depth + 1) node pos (keyAt key pos)) (subkey key pos)

/-- `get` with any choice of the positions at which it descends. -/
def getThrough (choose : Nat → FullNode M K V → Nat) : Nat → RawIdentifier → List K → Option V
  | 0, _, _ => none
  | depth + 1, nodec, key =>
    if t.isSen nodec then
      getSingleEntry t (depth + 1) nodec (storedEntry ns (depth + 1) nodec) key
    else if nodec.isEmpty then some t.zero
    else do
      let node ← find (ns.fns (depth + 1)) nodec
      if depth = 0 then some (resolveValue t node (keyAt key 0))
      else
        let pos := choose (depth + 1) node
        getThrough choose depth (resolve t ns (depth + 1) node pos (keyAt key pos)) (subkey key pos)

theorem get_eq_getThrough (depth : Nat) (nodec : RawIdentifier) (key : List K) :
    get t ns depth nodec key = getThrough t ns FullNode.minCardPos depth nodec key := by
  induction depth generalizing nodec key with
  | zero => rfl
  | succ depth ih => simp only [get, getThrough, ih]

def insert (depth : Nat) (nodec : RawIdentifier) (entries : List (SingleEntry K V)) :
    Option (RawIdentifier × NodeStorage M K V) :=
  insertEntriesIntoNode t depth ns nodec entries

def remove (depth : Nat) (nodec : RawIdentifier) (entries : List (SingleEntry K V)) :
    Option (RawIdentifier × NodeStorage M K V) :=
  eraseEntriesFromNode t depth ns nodec entries

/-- With the special case of an empty hypertrie whose entries are stored in place. -/
def insertIntoEmptyInPlace (depth : Nat) (nodec : RawIdentifier) (key : List K) (value : V) :
    Option (RawIdentifier × NodeStorage M K V) :=
  if t.inPlaceNode depth && nodec.isEmpty then insert t ns depth nodec [t.makeEntry key value]
  else some (nodec, ns)

variable [DecidableEq V]

/-- The change that `set` makes once the old value is known. -/
def setChanged (depth : Nat) (nodec : RawIdentifier) (key : List K) (value oldValue : V) :
    Option (RawIdentifier × NodeStorage M K V) :=
  if value = oldValue then some (nodec, ns)
  else if value = t.zero then
    if t.isBoolValued then remove t ns depth nodec [⟨key, t.one⟩] else some (nodec, ns)
  else if oldValue = t.zero then insert t ns depth nodec [t.makeEntry key value]
  else some (nodec, ns)

/-- Returns the old value, the new container and the new storage. -/
def set (depth : Nat) (nodec : RawIdentifier) (key : List K) (value : V) :
    Option (V × RawIdentifier × NodeStorage M K V) := do
  let (nodec, ns) ← insertIntoEmptyInPlace t ns depth nodec key value
  let oldValue ← get t ns depth nodec key
  let changed ← setChanged t ns depth nodec key value oldValue
  some (oldValue, changed)

/-- The reference count of a stored node. -/
def refCount (depth : Nat) (nodec : RawIdentifier) : Option Nat :=
  if t.isSen nodec then (find (ns.sens depth) nodec).map SingleEntryNode.refCount
  else (find (ns.fns depth) nodec).map FullNode.refCount

def setRefCount (depth : Nat) (nodec : RawIdentifier) (refCount : Nat) :
    Option (NodeStorage M K V) :=
  if t.isSen nodec then
    (find (ns.sens depth) nodec).map fun node =>
      ns.setSens depth (assign (ns.sens depth) nodec { node with refCount := refCount })
  else
    (find (ns.fns depth) nodec).map fun node =>
      ns.setFns depth (assign (ns.fns depth) nodec { node with refCount := refCount })

/-- The source goes through a single-entry node in both cases; the count is the first member of
either kind of node. -/
def incRefCount (depth : Nat) (nodec : RawIdentifier) : Option (NodeStorage M K V) := do
  let refCount ← refCount t ns depth nodec
  setRefCount t ns depth nodec (refCount + 1)

/-- The last reference goes through the update code, which gives up the node. -/
def decrRefCount (depth : Nat) (nodec : RawIdentifier) : Option (NodeStorage M K V) := do
  let refCount ← refCount t ns depth nodec
  if 1 < refCount then setRefCount t ns depth nodec (refCount - 1)
  else
    ApplyUpdate.consumeAndExecute t depth ns
      (UpdateRequests.new.applyRefCountDelta t depth nodec (-1))

end RawHypertrieContext

section Reading

variable {t : HypertrieTrait K V} {F : Nat → Finset (SingleEntry K V) → Prop}
variable {ns : NodeStorage M K V} {d : Nat} {S : Finset (SingleEntry K V)}

/-- `v` is the value of the key, 0 if there is no entry for it. -/
def ValueAt (t : HypertrieTrait K V) (S : Finset (SingleEntry K V)) (key : List K) (v : V) : Prop :=
  ⟨key, v⟩ ∈ S ∨ v = t.zero ∧ ∀ e ∈ S, e.key ≠ key

omit [DecidableEq K] [Inhabited K] in
theorem ValueAt.unique (hS : IsEntrySet t d S) {key : List K} {v v' : V} (h : ValueAt t S key v)
    (h' : ValueAt t S key v') : v = v' := by
  rcases h with h | ⟨rfl, hn⟩
  · rcases h' with h' | ⟨-, hn'⟩
    · exact congrArg SingleEntry.value (hS.unique _ h _ h' rfl)
    · exact absurd rfl (hn' _ h)
  · rcases h' with h' | ⟨rfl, -⟩
    · exact absurd rfl (hn _ h')
    · rfl

variable [DecidableEq V]

/-- Following the key part at one position does not change the value. -/
theorem valueAt_split (hS : IsEntrySet t d S) {key : List K} (hl : key.length = d) {pos : Nat}
    (hp : pos < d) {v : V} (h : ValueAt t (split S pos (keyAt key pos)) (subkey key pos) v) :
    ValueAt t S key v := by
  rcases h with h | ⟨rfl, hn⟩
  · obtain ⟨e, he, hk, hs⟩ := mem_split.mp h
    obtain ⟨ekey, evalue⟩ := e
    simp only [subEntry, SingleEntry.mk.injEq] at hs
    have hle := hS.length _ he
    have hkey : ekey = key := key_ext (hle.trans hl.symm) (by simp only at hle; omega) hk hs.1
    rw [hkey, hs.2] at he
    exact Or.inl he
  · refine Or.inr ⟨rfl, fun e he hkey => ?_⟩
    refine hn (subEntry pos e) (mem_split.mpr ⟨e, he, by rw [hkey], rfl⟩) ?_
    rw [subEntry, hkey]

/-- A container for a set that is stored keeps the identifier of the set. -/
theorem lookup_ident (hF : InPlay t F) (hS : S.Nonempty → F d S) (hst : Stored t ns d S) :
    (if t.inPlaceNode d then t.ident d S else ns.lookup t d (t.ident d S)) = t.ident d S := by
  split
  · rfl
  next hplace =>
    rcases S.eq_empty_or_nonempty with rfl | hne
    · simp [NodeStorage.lookup, RawIdentifier.isEmpty]
    have hseed := hF.ident_ne_seed (hS hne) hne
    have hfn := hF.isFn_ident_iff (hS hne)
    unfold NodeStorage.lookup
    rw [if_neg (by simpa [RawIdentifier.isEmpty] using hseed)]
    by_cases hc : 2 ≤ S.card
    · rw [if_pos (hfn.mpr hc), if_pos (hst.fn hc)]
    · have hpos := hne.card_pos
      rw [if_neg fun hf => hc (hfn.mp hf), if_pos (hst.sen (by omega) (by simpa using hplace))]

/-- A child of a full node is the node of the matching subset. -/
theorem resolve_spec {n : FullNode M K V} (hn : n.Represents t d S) (hd : 1 < d) {pos : Nat}
    (hp : pos < d) (k : K) (hst : Stored t ns (d - 1) (split S pos k)) (hF : InPlay t F)
    (hS : (split S pos k).Nonempty → F (d - 1) (split S pos k)) :
    RawHypertrieContext.resolve t ns d n pos k = t.ident (d - 1) (split S pos k) := by
  have hid : (childIdent t (d - 1) (split S pos k)).getD seed = t.ident (d - 1) (split S pos k) := by
    rcases (split S pos k).eq_empty_or_nonempty with h0 | hne
    · simp [h0]
    · rw [childIdent_of_nonempty t (d - 1) hne, Option.getD_some]
  unfold RawHypertrieContext.resolve
  rw [hn.edges hd pos hp k, hid]
  exact lookup_ident hF hS hst

omit [DecidableEq V] in
/-- Reading a container for one entry whose node, if it needs one, holds that entry. -/
theorem getSingleEntry_spec {e : SingleEntry K V} (hset : IsEntrySet t d {e})
    {entry : Option (SingleEntry K V)} (hentry : t.inPlaceNode d = false → entry = some e)
    {key : List K} (hl : key.length = d) :
    Ensures (RawHypertrieContext.getSingleEntry t d (t.ident d {e}) entry key) (ValueAt t {e} key) := by
  have hne : (t.ident d {e}).isEmpty ≠ true := by
    rw [HypertrieTrait.ident_singleton, HypertrieTrait.encodeSingleEntry_eq]
    simp [HypertrieTrait.isEmpty_tagAsSen]
  unfold RawHypertrieContext.getSingleEntry
  rw [if_neg hne]
  have hv := hset.value e (Finset.mem_singleton_self e)
  have hval : (if t.isBoolValued then t.one else e.value) = e.value := by
    have := HypertrieTrait.makeEntry_of_ne_zero t e.key hv
    simpa [HypertrieTrait.makeEntry] using congrArg SingleEntry.value this
  have hhit : ∀ v, v = e.value → e.key = key → ValueAt t {e} key v := by
    rintro _ rfl rfl
    exact Or.inl (Finset.mem_singleton_self e)
  have hmiss : e.key ≠ key → ValueAt t {e} key t.zero := by
    intro h
    refine Or.inr ⟨rfl, fun e' he' => ?_⟩
    rw [Finset.mem_singleton.mp he']
    exact h
  by_cases hp : t.inPlaceNode d = true
  · obtain ⟨hb, -, rfl⟩ := HypertrieTrait.inPlaceNode_iff.mp hp
    rw [if_pos hp, HypertrieTrait.getEntry_ident_singleton hp hset]
    have hle := hset.length e (Finset.mem_singleton_self e)
    obtain ⟨k, hk⟩ := List.length_eq_one_iff.mp hl
    obtain ⟨k', hk'⟩ := List.length_eq_one_iff.mp hle
    refine Ensures.pure ?_
    split
    next h =>
      refine hhit _ ?_ (by simpa [hk, hk', keyAt] using h)
      rw [← hval, hb]
      rfl
    next h => exact hmiss (by simpa [hk, hk', keyAt] using h)
  · rw [if_neg hp, hentry (by simpa using hp)]
    simp only [Option.bind_eq_bind, Option.bind_some]
    split
    next h => exact Ensures.pure (hhit _ hval h)
    next h => exact Ensures.pure (hmiss h)

theorem storedEntry_of_stored (hF : InPlay t F) (hok : NodesOk t F ns d) {e : SingleEntry K V}
    (he : F d {e}) (hst : Stored t ns d {e}) (hp : t.inPlaceNode d = false) :
    RawHypertrieContext.storedEntry ns d (t.ident d {e}) = some e := by
  obtain ⟨n, hn⟩ := contains_iff.mp (hst.sen (Finset.card_singleton e) hp)
  unfold RawHypertrieContext.storedEntry
  rw [hn, Option.map_some, hok.sen_entry hF he hn]

/-- A storage that can be read: its nodes hold sets in play, and their children are stored. -/
structure Readable (t : HypertrieTrait K V) (F : Nat → Finset (SingleEntry K V) → Prop)
    (ns : NodeStorage M K V) : Prop where
  inPlay : InPlay t F
  nodes : ∀ d, NodesOk t F ns d
  children : ∀ d, ChildrenStored t F ns d

theorem getThrough_spec (hr : Readable t F ns) (hd : 0 < d) (hS : S.Nonempty → F d S)
    (hst : Stored t ns d S) {choose : Nat → FullNode M K V → Nat}
    (hchoose : ∀ d n, 0 < d → choose d n < d) {key : List K} (hl : key.length = d) :
    Ensures (RawHypertrieContext.getThrough t ns choose d (t.ident d S) key) (ValueAt t S key) := by
  induction d generalizing S key with
  | zero => exact absurd hd (lt_irrefl 0)
  | succ d ih =>
    have hF := hr.inPlay
    have hok := hr.nodes (d + 1)
    unfold RawHypertrieContext.getThrough
    rcases S.eq_empty_or_nonempty with rfl | hne
    · simp only [HypertrieTrait.ident_empty, HypertrieTrait.isSen_seed]
      exact Ensures.pure (Or.inr ⟨rfl, by simp⟩)
    have hSF := hS hne
    have hset := hF.entrySet hSF
    by_cases hs : t.isSen (t.ident (d + 1) S) = true
    · obtain ⟨e, rfl⟩ := Finset.card_eq_one.mp (HypertrieTrait.isSen_ident_iff.mp hs)
      rw [if_pos hs]
      exact getSingleEntry_spec hset (storedEntry_of_stored hF hok hSF hst) hl
    have hcard : 2 ≤ S.card := by
      have h1 : S.card ≠ 1 := fun h1 => hs (HypertrieTrait.isSen_ident_iff.mpr h1)
      have := hne.card_pos
      omega
    have hseed := hF.ident_ne_seed hSF hne
    obtain ⟨n, hn⟩ := contains_iff.mp (hst.fn hcard)
    have hrep := hok.represents hF hSF hn
    rw [if_neg hs, if_neg (by simpa [RawIdentifier.isEmpty] using hseed), hn]
    simp only [Option.bind_eq_bind, Option.bind_some]
    split
    next h0 =>
      subst h0
      obtain ⟨k, rfl⟩ := List.length_eq_one_iff.mp hl
      refine Ensures.pure ?_
      show ValueAt t S [k] ((find n.values k).getD t.zero)
      cases hv : find n.values k with
      | some v => exact Or.inl ((hrep.values rfl k v).mp hv)
      | none =>
        refine Or.inr ⟨rfl, fun e he hk => ?_⟩
        obtain ⟨ekey, v⟩ := e
        rw [show ekey = [k] from hk] at he
        have hv' := (hrep.values rfl k v).mpr he
        rw [hv] at hv'
        cases hv'
    next h0 =>
      have hp := hchoose (d + 1) n (by omega)
      have hsub : (split S (choose (d + 1) n) (keyAt key (choose (d + 1) n))).Nonempty →
          F d (split S (choose (d + 1) n) (keyAt key (choose (d + 1) n))) :=
        fun hsplit => hF.split hSF hcard hp (by omega) hsplit
      have hchild := hr.children (d + 1) (by omega) S hSF hcard (hst.fn hcard) _ hp
        (keyAt key (choose (d + 1) n))
      rw [resolve_spec hrep (by omega) hp _ hchild hF hsub]
      have hlsub : (subkey key (choose (d + 1) n)).length = d := by
        rw [length_subkey (by omega), hl]
        omega
      exact (ih (by omega) hsub hchild hlsub).mono
        fun v hv => valueAt_split hset hl hp hv

theorem get_spec (hr : Readable t F ns) (hd : 0 < d) (hS : S.Nonempty → F d S)
    (hst : Stored t ns d S) {key : List K} (hl : key.length = d) :
    Ensures (RawHypertrieContext.get t ns d (t.ident d S) key) (ValueAt t S key) := by
  rw [RawHypertrieContext.get_eq_getThrough]
  exact getThrough_spec hr hd hS hst (fun _ n hd => n.minCardPos_lt hd) hl

end Reading

end Hypertrie
