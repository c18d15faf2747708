import Hypertrie.UpdatePlan

/-! Execution of the planned changes, depth by depth. Changing the edges of a
node registers the requests for the depth below. -/

namespace Hypertrie

open UnorderedMap

variable {M : Type → Type → Type} {K V : Type}

inductive NodeOrigin where
  | copied
  | moved
  | justCreated
  deriving DecidableEq, Repr

/-- What the execution at one depth changes. -/
structure ApplyUpdate (M : Type → Type → Type) (K V : Type) where
  nodeStorage : NodeStorage M K V
  childUpdateRequests : UpdateRequests M K V
  doneFns : M RawIdentifier Unit

/-- Reference counts are unsigned; they must not become negative. -/
def addRefCount (refCount : Nat) (delta : Int) : Option Nat :=
  if 0 ≤ (refCount : Int) + delta then some ((refCount : Int) + delta).toNat else none

namespace NodeStorage

def setFns (ns : NodeStorage M K V) (depth : Nat) (fns : M RawIdentifier (FullNode M K V)) :
    NodeStorage M K V :=
  { ns with fns := Function.update ns.fns depth fns }

def setSens (ns : NodeStorage M K V) (depth : Nat)
    (sens : M RawIdentifier (SingleEntryNode K V)) : NodeStorage M K V :=
  { ns with sens := Function.update ns.sens depth sens }

@[simp] theorem setFns_fns_self (ns : NodeStorage M K V) (depth : Nat)
    (fns : M RawIdentifier (FullNode M K V)) : (ns.setFns depth fns).fns depth = fns :=
  Function.update_self _ _ _

theorem setFns_fns_ne (ns : NodeStorage M K V) {depth d : Nat} (hd : d ≠ depth)
    (fns : M RawIdentifier (FullNode M K V)) : (ns.setFns depth fns).fns d = ns.fns d :=
  Function.update_of_ne hd _ _

@[simp] theorem setSens_sens_self (ns : NodeStorage M K V) (depth : Nat)
    (sens : M RawIdentifier (SingleEntryNode K V)) : (ns.setSens depth sens).sens depth = sens :=
  Function.update_self _ _ _

theorem setSens_sens_ne (ns : NodeStorage M K V) {depth d : Nat} (hd : d ≠ depth)
    (sens : M RawIdentifier (SingleEntryNode K V)) : (ns.setSens depth sens).sens d = ns.sens d :=
  Function.update_of_ne hd _ _

end NodeStorage

variable [UnorderedMap M] [DecidableEq K] [Inhabited K]

namespace ApplyUpdate

variable (t : HypertrieTrait K V) (ns : NodeStorage M K V) (depth : Nat)

/-- The edges of one position, and the requests for the children. -/
abbrev EdgeState (M : Type → Type → Type) (K V : Type) := M K RawIdentifier × UpdateRequests M K V

/-- A child of a copied node that stays the same gets one more parent. -/
def retainChild {α : Type} (changed : M K α) (ur : UpdateRequests M K V)
    (edge : K × RawIdentifier) : UpdateRequests M K V :=
  if contains changed edge.1 then ur
  else if t.inPlaceNode (depth - 1) && t.isSen edge.2 then ur
  else ur.applyRefCountDelta t (depth - 1) edge.2 1

def insertIntoEdge (origin : NodeOrigin) (acc : EdgeState M K V)
    (inserted : K × List (SingleEntry K V)) : Option (EdgeState M K V) :=
  match if origin = .justCreated then none else find acc.1 inserted.1 with
  | some childId => do
    let (childId, ur) ← acc.2.insertIntoNode t ns (depth - 1) childId inserted.2 (origin = .moved)
    some (assign acc.1 inserted.1 childId, ur)
  | none =>
    match t.inPlaceNode (depth - 1), inserted.2 with
    | true, [entry] => some (assign acc.1 inserted.1 (t.encodeSingleEntry (depth - 1) entry), acc.2)
    | _, entries =>
      let (childId, ur) := acc.2.addNode t (depth - 1) entries
      some (assign acc.1 inserted.1 childId, ur)

def insertAtPos (origin : NodeOrigin) (newEntries : List (SingleEntry K V))
    (acc : FullNode M K V × UpdateRequests M K V) (pos : Nat) :
    Option (FullNode M K V × UpdateRequests M K V) := do
  let newlyInsertedChildren : M K (List (SingleEntry K V)) := entrySubsetForPos newEntries pos
  let edges := acc.1.edges pos
  let ur :=
    if origin = .copied then (entries edges).foldl (retainChild t depth newlyInsertedChildren) acc.2
    else acc.2
  let (edges, ur) ← (entries newlyInsertedChildren).foldlM (insertIntoEdge t ns depth origin)
    (edges, ur)
  some (acc.1.setEdges pos edges, ur)

def applyFnEntryInsertion (origin : NodeOrigin) (newEntries : List (SingleEntry K V))
    (node : FullNode M K V) (ur : UpdateRequests M K V) :
    Option (FullNode M K V × UpdateRequests M K V) :=
  if depth = 1 then
    some (newEntries.foldl (fun node e => node.insertOrAssign t (keyAt e.key 0) e.value) node, ur)
  else
    (List.range depth).foldlM (insertAtPos t ns depth origin newEntries)
      ({ node with size_ := node.size_ + newEntries.length }, ur)

def eraseFromEdge (moved : Bool) (acc : EdgeState M K V) (removed : K × List (SingleEntry K V)) :
    Option (EdgeState M K V) := do
  let childId ← find acc.1 removed.1
  let (childId, ur) ← acc.2.removeFromNode t ns (depth - 1) childId removed.2 moved
  if childId.isEmpty then some (erase acc.1 removed.1, ur)
  else some (assign acc.1 removed.1 childId, ur)

/-- One edge of a copied node: it is changed if entries are removed from the child, otherwise
the child gets one more parent. -/
def eraseFromCopiedEdge (changes : M K (List (SingleEntry K V))) (acc : EdgeState M K V)
    (edge : K × RawIdentifier) : Option (EdgeState M K V) :=
  match find changes edge.1 with
  | some subset => eraseFromEdge t ns depth false acc (edge.1, subset)
  | none => some (acc.1, acc.2.applyRefCountDelta t (depth - 1) edge.2 1)

/-- In a copy every edge is visited, in a moved node only those that change. -/
def eraseFromEdges (origin : NodeOrigin) (changes : M K (List (SingleEntry K V)))
    (acc : EdgeState M K V) : Option (EdgeState M K V) :=
  if origin = .copied then (entries acc.1).foldlM (eraseFromCopiedEdge t ns depth changes) acc
  else (entries changes).foldlM (eraseFromEdge t ns depth true) acc

def eraseAtPos (origin : NodeOrigin) (removed : List (SingleEntry K V))
    (acc : FullNode M K V × UpdateRequests M K V) (pos : Nat) :
    Option (FullNode M K V × UpdateRequests M K V) := do
  let (edges, ur) ← eraseFromEdges t ns depth origin (entrySubsetForPos removed pos)
    (acc.1.edges pos, acc.2)
  some (acc.1.setEdges pos edges, ur)

def applyFnEntryErasure (origin : NodeOrigin) (removed : List (SingleEntry K V))
    (node : FullNode M K V) (ur : UpdateRequests M K V) :
    Option (FullNode M K V × UpdateRequests M K V) :=
  if depth = 1 then
    some (removed.foldl (fun node e =>
      { node with values := erase node.values (keyAt e.key 0) }) node, ur)
  else
    (List.range depth).foldlM (eraseAtPos t ns depth origin removed)
      ({ node with size_ := node.size_ - removed.length }, ur)

def applyFnEntries (update : FNEntriesUpdate K V) (origin : NodeOrigin) (node : FullNode M K V)
    (ur : UpdateRequests M K V) : Option (FullNode M K V × UpdateRequests M K V) :=
  match update.mode with
  | .insert => applyFnEntryInsertion t ns depth origin update.entries node ur
  | .erase => applyFnEntryErasure t ns depth origin update.entries node ur

/-- Store a node that an update produced, with the reference count planned for it. -/
def storeNew (plan : UpdatePlan M K V) (st : ApplyUpdate M K V) (id : RawIdentifier)
    (fns : M RawIdentifier (FullNode M K V)) (node : FullNode M K V) (ur : UpdateRequests M K V) :
    Option (ApplyUpdate M K V) := do
  let refCount ← find plan.fnDeltas id
  some ⟨st.nodeStorage.setFns depth (assign fns id { node with refCount := refCount.toNat }), ur,
    assign st.doneFns id ()⟩

def createFn (plan : UpdatePlan M K V) (st : ApplyUpdate M K V) (creation : FNCreation K V) :
    Option (ApplyUpdate M K V) := do
  let (node, ur) ← applyFnEntryInsertion t st.nodeStorage depth .justCreated creation.entries
    (.new 0) st.childUpdateRequests
  storeNew depth plan st creation.id (st.nodeStorage.fns depth) node ur

def copyUpdateFnToFn (plan : UpdatePlan M K V) (st : ApplyUpdate M K V)
    (update : FNEntriesUpdate K V) : Option (ApplyUpdate M K V) := do
  let source ← find (st.nodeStorage.fns depth) update.sourceId
  let (node, ur) ← applyFnEntries t st.nodeStorage depth update .copied source
    st.childUpdateRequests
  storeNew depth plan st update.targetId (st.nodeStorage.fns depth) node ur

def moveUpdateFnToFn (plan : UpdatePlan M K V) (st : ApplyUpdate M K V)
    (update : FNEntriesUpdate K V) : Option (ApplyUpdate M K V) := do
  let source ← find (st.nodeStorage.fns depth) update.sourceId
  let (node, ur) ← applyFnEntries t st.nodeStorage depth update .moved source
    st.childUpdateRequests
  storeNew depth plan { st with doneFns := assign st.doneFns update.sourceId () } update.targetId
    (erase (st.nodeStorage.fns depth) update.sourceId) node ur

/-- A child of a deleted node loses one parent. -/
def releaseChild (ur : UpdateRequests M K V) (edge : K × RawIdentifier) : UpdateRequests M K V :=
  if t.inPlaceNode (depth - 1) && t.isSen edge.2 then ur
  else ur.applyRefCountDelta t (depth - 1) edge.2 (-1)

def releaseChildren (node : FullNode M K V) (ur : UpdateRequests M K V) : UpdateRequests M K V :=
  if depth = 1 then ur
  else
    (List.range depth).foldl (fun ur pos =>
      (entries (node.edges pos)).foldl (releaseChild t depth) ur) ur

def deleteFn (st : ApplyUpdate M K V) (id : RawIdentifier) : Option (ApplyUpdate M K V) := do
  let node ← find (st.nodeStorage.fns depth) id
  some { st with
    nodeStorage := st.nodeStorage.setFns depth (erase (st.nodeStorage.fns depth) id),
    childUpdateRequests := releaseChildren t depth node st.childUpdateRequests }

def applyFnDelta (st : ApplyUpdate M K V) (update : RawIdentifier × Int) :
    Option (ApplyUpdate M K V) :=
  if contains st.doneFns update.1 then some st
  else do
    let node ← find (st.nodeStorage.fns depth) update.1
    let refCount ← addRefCount node.refCount update.2
    some { st with
      nodeStorage := st.nodeStorage.setFns depth
        (assign (st.nodeStorage.fns depth) update.1 { node with refCount := refCount }),
      doneFns := assign st.doneFns update.1 () }

/-- Create or delete a single-entry node, or change its reference count. -/
def applySenUpdate (sens : M RawIdentifier (SingleEntryNode K V))
    (update : RawIdentifier × SENChange K V) : Option (M RawIdentifier (SingleEntryNode K V)) :=
  if update.2.refCountDelta = 0 then some sens
  else
    match find sens update.1 with
    | some node => do
      let refCount ← addRefCount node.refCount update.2.refCountDelta
      if refCount = 0 then some (erase sens update.1)
      else some (assign sens update.1 { node with refCount := refCount })
    | none =>
      if update.2.refCountDelta < 0 then none
      else do
        let entry ← update.2.entry
        some (assign sens update.1 ⟨update.2.refCountDelta.toNat, entry⟩)

def applySenUpdates (senChanges : M RawIdentifier (SENChange K V))
    (sens : M RawIdentifier (SingleEntryNode K V)) : Option (M RawIdentifier (SingleEntryNode K V)) :=
  if t.inPlaceNode depth then some sens else (entries senChanges).foldlM applySenUpdate sens

/-- The changes at one depth; returns the requests for the depth below. -/
def executeDepth (ur : UpdateRequests M K V) : Option (NodeStorage M K V × UpdateRequests M K V) := do
  let plan ← UpdatePlan.ofRequests (ns.fns depth) ur
  let st ← plan.fnCreate.foldlM (createFn t depth plan) ⟨ns, .new, empty⟩
  let st ← plan.fnUpdateCopy.foldlM (copyUpdateFnToFn t depth plan) st
  let st ← plan.fnUpdateMove.foldlM (moveUpdateFnToFn t depth plan) st
  let st ← ((entries plan.fnDelete).map Prod.fst).foldlM (deleteFn t depth) st
  let st ← (entries plan.fnDeltas).foldlM (applyFnDelta depth) st
  let sens ← applySenUpdates t depth plan.senChanges (st.nodeStorage.sens depth)
  some (st.nodeStorage.setSens depth sens, st.childUpdateRequests)

/-- `ApplyUpdate::consume_and_execute`. -/
def consumeAndExecute (t : HypertrieTrait K V) :
    Nat → NodeStorage M K V → UpdateRequests M K V → Option (NodeStorage M K V)
  | 0, ns, _ => some ns
  | depth + 1, ns, ur => do
    let (ns, childUpdateRequests) ← executeDepth t ns (depth + 1) ur
    consumeAndExecute t depth ns childUpdateRequests

end ApplyUpdate

open ApplyUpdate

/-- The identifier of the node the handle is to hold, and the requests for it. -/
def requestUpdate (t : HypertrieTrait K V) (mode : EntriesUpdateMode) (depth : Nat)
    (ns : NodeStorage M K V) (nodec : RawIdentifier) (newEntries : List (SingleEntry K V)) :
    Option (RawIdentifier × UpdateRequests M K V) :=
  match mode with
  | .insert =>
    if nodec.isEmpty then some (UpdateRequests.new.addNode t depth newEntries)
    else UpdateRequests.new.insertIntoNode t ns depth nodec newEntries true
  | .erase => UpdateRequests.new.removeFromNode t ns depth nodec newEntries true

/-- Insert entries into, or erase them from, the node of a handle; returns the new handle. -/
def applyUpdate (t : HypertrieTrait K V) (mode : EntriesUpdateMode) (depth : Nat)
    (ns : NodeStorage M K V) (nodec : RawIdentifier) (newEntries : List (SingleEntry K V)) :
    Option (RawIdentifier × NodeStorage M K V) :=
  if newEntries = [] then some (nodec, ns)
  else do
    let (targetId, ur) ← requestUpdate t mode depth ns nodec newEntries
    let ns ← consumeAndExecute t depth ns ur
    some (if t.inPlaceNode depth then targetId else ns.lookup t depth targetId, ns)

def insertEntriesIntoNode (t : HypertrieTrait K V) (depth : Nat) (ns : NodeStorage M K V)
    (nodec : RawIdentifier) (newEntries : List (SingleEntry K V)) :
    Option (RawIdentifier × NodeStorage M K V) :=
  applyUpdate t .insert depth ns nodec newEntries

def eraseEntriesFromNode (t : HypertrieTrait K V) (depth : Nat) (ns : NodeStorage M K V)
    (nodec : RawIdentifier) (oldEntries : List (SingleEntry K V)) :
    Option (RawIdentifier × NodeStorage M K V) :=
  applyUpdate t .erase depth ns nodec oldEntries

end Hypertrie
