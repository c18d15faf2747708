import Hypertrie.NodeStorage

/-! Update requests for one depth. Requests are only registered here; the
storage is read, never changed. A failed lookup makes the request fail. -/

namespace Hypertrie

open UnorderedMap

variable {M : Type → Type → Type} [UnorderedMap M] {K V : Type}
variable [DecidableEq K] [DecidableEq V] [Inhabited K]

inductive EntriesUpdateMode where
  | insert
  | erase
  deriving DecidableEq, Repr

/-- Where single entries are stored in place only `entry` is used. -/
structure SENChange (K V : Type) where
  refCountDelta : Int := 0
  entry : Option (SingleEntry K V) := none
  deriving DecidableEq, Repr

structure FNEntriesUpdateData (K V : Type) where
  entries : List (SingleEntry K V)
  mode : EntriesUpdateMode
  deriving DecidableEq, Repr

structure UpdateRequests (M : Type → Type → Type) (K V : Type) where
  senChanges : M RawIdentifier (SENChange K V)
  fnUpdateEntries : M RawIdentifier (M RawIdentifier (FNEntriesUpdateData K V))
  fnCreations : M RawIdentifier (List (SingleEntry K V))
  fnDeltas : M RawIdentifier Int
  fnDeletionCandidates : M RawIdentifier Unit
  fnMoveTargetCandidates : M RawIdentifier Unit
  fnPotentiallyNew : M RawIdentifier Unit

section RemainingEntry

/-- The first result of `visit` that is not empty-handed. -/
def firstResult {α β : Type} (visit : α → Option (Option β)) : List α → Option (Option β)
  | [] => some none
  | a :: rest => do
    match ← visit a with
    | some b => some (some b)
    | none => firstResult visit rest

/-- Put a key part back into the key of a sub-entry. -/
def combineRes (t : HypertrieTrait K V) (keyPart : K) (pos : Nat) (subRes : SingleEntry K V) :
    SingleEntry K V :=
  t.makeEntry (subRes.key.insertIdx pos keyPart) subRes.value

/-- What one edge leads to of the entries that remain; `retrieve` searches a full child. -/
def remainingBehindEdge (t : HypertrieTrait K V) (ns : NodeStorage M K V) (childDepth pos : Nat)
    (removedParts : M K (List (SingleEntry K V)))
    (retrieve : FullNode M K V → List (SingleEntry K V) → Option (Option (SingleEntry K V)))
    (edge : K × RawIdentifier) : Option (Option (SingleEntry K V)) :=
  match find removedParts edge.1 with
  | none =>
    if t.inPlaceNode childDepth then
      some (some (combineRes t edge.1 pos (t.getEntry edge.2)))
    else
      (find (ns.sens childDepth) edge.2).map
        (fun child => some (combineRes t edge.1 pos child.entry))
  | some nextEntries =>
    if t.isSen edge.2 then some none
    else do
      let child ← find (ns.fns childDepth) edge.2
      let subEntry ← retrieve child nextEntries
      some (subEntry.map (combineRes t edge.1 pos))

/-- The entry of the node that is not among the removed ones, if there is one. -/
def retrieveRemainingSingleEntryImpl (t : HypertrieTrait K V) (ns : NodeStorage M K V) :
    (depth : Nat) → FullNode M K V → List (SingleEntry K V) → Option (Option (SingleEntry K V))
  | 0, _, _ => some none
  | 1, node, removed =>
    let removedParts := removed.map (fun e => keyAt e.key 0)
    firstResult (fun edge =>
      some (if edge.1 ∈ removedParts then none else some (t.makeEntry [edge.1] edge.2)))
      (entries node.values)
  | depth + 2, node, removed =>
    -- the position with the most edges has the best chance of leading to a single entry
    let pos := node.maxCardPos (depth + 2)
    firstResult (remainingBehindEdge t ns (depth + 1) pos (entrySubsetForPos removed pos)
        (fun child next => retrieveRemainingSingleEntryImpl t ns (depth + 1) child next))
      (entries (node.edges pos))

def retrieveRemainingSingleEntry (t : HypertrieTrait K V) (ns : NodeStorage M K V) (depth : Nat)
    (node : FullNode M K V) (removed : List (SingleEntry K V)) : Option (SingleEntry K V) :=
  (retrieveRemainingSingleEntryImpl t ns depth node removed).bind id

end RemainingEntry

namespace UpdateRequests

def new : UpdateRequests M K V := ⟨empty, empty, empty, empty, empty, empty, empty⟩

/-- The change registered for a single-entry node; a new one if there is none. -/
def senChange (ur : UpdateRequests M K V) (id : RawIdentifier) : SENChange K V :=
  (find ur.senChanges id).getD {}

def setSenChange (ur : UpdateRequests M K V) (id : RawIdentifier) (change : SENChange K V) :
    UpdateRequests M K V :=
  { ur with senChanges := assign ur.senChanges id change }

def addCreation (ur : UpdateRequests M K V) (id : RawIdentifier) (entries : List (SingleEntry K V)) :
    UpdateRequests M K V :=
  { ur with fnCreations := emplace ur.fnCreations id entries }

def addUpdate (ur : UpdateRequests M K V) (sourceId targetId : RawIdentifier)
    (data : FNEntriesUpdateData K V) : UpdateRequests M K V :=
  let changes := (find ur.fnUpdateEntries sourceId).getD empty
  { ur with fnUpdateEntries := assign ur.fnUpdateEntries sourceId (emplace changes targetId data) }

def addMoveTarget (ur : UpdateRequests M K V) (id : RawIdentifier) : UpdateRequests M K V :=
  { ur with fnMoveTargetCandidates := assign ur.fnMoveTargetCandidates id () }

variable (t : HypertrieTrait K V) (ns : NodeStorage M K V) (depth : Nat)

def applyRefCountDelta (ur : UpdateRequests M K V) (id : RawIdentifier) (refCountDelta : Int) :
    UpdateRequests M K V :=
  if refCountDelta = 0 then ur
  else if t.isFn id then
    let ur := { ur with
      fnDeltas := assign ur.fnDeltas id ((find ur.fnDeltas id).getD 0 + refCountDelta) }
    if refCountDelta < 0 then
      { ur with fnDeletionCandidates := assign ur.fnDeletionCandidates id () }
    else { ur with fnPotentiallyNew := assign ur.fnPotentiallyNew id () }
  else if t.inPlaceNode depth then ur
  else
    let change := ur.senChange id
    ur.setSenChange id { change with refCountDelta := change.refCountDelta + refCountDelta }

def addNode (ur : UpdateRequests M K V) (entries : List (SingleEntry K V)) :
    RawIdentifier × UpdateRequests M K V :=
  let idAfter := t.hashIterable depth entries
  match entries with
  | [entry] =>
    if t.inPlaceNode depth then (idAfter, ur)
    else (idAfter, ur.setSenChange idAfter ⟨(ur.senChange idAfter).refCountDelta + 1, some entry⟩)
  | entries => (idAfter, (ur.addCreation idAfter entries).applyRefCountDelta t depth idAfter 1)

/-- The change registered for a single-entry node, with its entry filled in. -/
def senChangeFor (ur : UpdateRequests M K V) (id : RawIdentifier) : Option (SENChange K V) :=
  match find ur.senChanges id with
  | some change =>
    match change.entry with
    | some _ => some change
    | none => (find (ns.sens depth) id).map (fun node => { change with entry := some node.entry })
  | none => (find (ns.sens depth) id).map (fun node => { entry := some node.entry })

def insertIntoNode (ur : UpdateRequests M K V) (sourceId : RawIdentifier)
    (entries : List (SingleEntry K V)) (nodeBeforeNeedsDecrement : Bool) :
    Option (RawIdentifier × UpdateRequests M K V) :=
  let targetId := t.combine depth (t.hashIterable depth entries) sourceId false
  let ur := ur.applyRefCountDelta t depth targetId 1
  if t.isSen sourceId then
    -- the entry of the source joins the new ones, and a node is created from all of them
    if t.inPlaceNode depth then
      some (targetId, ur.addCreation targetId (entries ++ [t.getEntry sourceId]))
    else do
      let change ← senChangeFor ns depth ur sourceId
      let entry ← change.entry
      let delta := change.refCountDelta - (if nodeBeforeNeedsDecrement then 1 else 0)
      some (targetId, (ur.addCreation targetId (entries ++ [entry])).setSenChange sourceId
        { change with refCountDelta := delta })
  else
    let ur :=
      if nodeBeforeNeedsDecrement then
        (ur.addMoveTarget targetId).applyRefCountDelta t depth sourceId (-1)
      else ur
    some (targetId, ur.addUpdate sourceId targetId ⟨entries, .insert⟩)

/-- The one entry that remains, from its node if that is stored already. -/
def remainingEntry (node : FullNode M K V) (removed : List (SingleEntry K V))
    (targetId : RawIdentifier) : Option (SingleEntry K V) :=
  match find (ns.sens depth) targetId with
  | some stored => some stored.entry
  | none => retrieveRemainingSingleEntry t ns depth node removed

def removeFromNode (ur : UpdateRequests M K V) (sourceId : RawIdentifier)
    (entries : List (SingleEntry K V)) (nodeBeforeNeedsDecrement : Bool) :
    Option (RawIdentifier × UpdateRequests M K V) :=
  if t.isSen sourceId then
    if t.inPlaceNode depth then some (seed, ur)
    else
      let delta := (ur.senChange sourceId).refCountDelta - (if nodeBeforeNeedsDecrement then 1 else 0)
      some (seed, ur.setSenChange sourceId ⟨delta, entries.head?⟩)
  else
    let targetId := t.combine depth (t.hashIterable depth entries) sourceId false
    let ur := if nodeBeforeNeedsDecrement then ur.applyRefCountDelta t depth sourceId (-1) else ur
    if targetId.isEmpty then some (targetId, ur)
    else do
      let node ← find (ns.fns depth) sourceId
      let targetSize := node.size depth - entries.length
      if targetSize = 1 then
        let targetId := t.tagAsSen targetId
        if t.inPlaceNode depth then
          -- the entries are cached under the identifier they had if they were not in place
          match find ur.senChanges targetId with
          | some change =>
            let entry ← change.entry
            some (t.encodeSingleEntry depth entry, ur)
          | none =>
            let entry ← retrieveRemainingSingleEntry t ns depth node entries
            some (t.encodeSingleEntry depth entry,
              ur.setSenChange targetId { entry := some entry })
        else
          match find ur.senChanges targetId with
          | some change =>
            some (targetId, ur.setSenChange targetId
              { change with refCountDelta := change.refCountDelta + 1 })
          | none =>
            let entry ← remainingEntry t ns depth node entries targetId
            some (targetId, ur.setSenChange targetId ⟨1, some entry⟩)
      else if 1 < targetSize then
        let ur := (ur.applyRefCountDelta t depth targetId 1).addMoveTarget targetId
        some (targetId, ur.addUpdate sourceId targetId ⟨entries, .erase⟩)
      else none

end UpdateRequests

end Hypertrie
