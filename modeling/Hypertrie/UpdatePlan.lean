import Hypertrie.UpdateRequests

/-! The plan for one depth: every requested change of a full node becomes a
creation, a copy, a move or a deletion. -/

namespace Hypertrie

open UnorderedMap

variable {M : Type → Type → Type} [UnorderedMap M] {K V : Type}
variable [DecidableEq K] [DecidableEq V] [Inhabited K]

structure FNCreation (K V : Type) where
  id : RawIdentifier
  entries : List (SingleEntry K V)
  deriving DecidableEq, Repr

structure FNEntriesUpdate (K V : Type) where
  sourceId : RawIdentifier
  targetId : RawIdentifier
  entries : List (SingleEntry K V)
  mode : EntriesUpdateMode
  deriving DecidableEq, Repr

structure UpdatePlan (M : Type → Type → Type) (K V : Type) where
  fnCreate : List (FNCreation K V)
  fnUpdateCopy : List (FNEntriesUpdate K V)
  fnUpdateMove : List (FNEntriesUpdate K V)
  fnDelete : M RawIdentifier Unit
  fnDeltas : M RawIdentifier Int
  senChanges : M RawIdentifier (SENChange K V)

namespace UpdatePlan

/-- The nodes that are not stored yet. -/
def fnToBeCreated (fns : M RawIdentifier (FullNode M K V)) (ur : UpdateRequests M K V) :
    M RawIdentifier Unit :=
  (entries ur.fnPotentiallyNew).foldl (fun ret (id, _) =>
    if contains fns id then ret else assign ret id ()) empty

/-- A reference count is dropped from the deltas if it does not change or falls to zero; in the
second case the node is to be deleted. -/
def planDeletion (fns : M RawIdentifier (FullNode M K V))
    (acc : M RawIdentifier Unit × M RawIdentifier Int) (sourceFn : RawIdentifier) :
    Option (M RawIdentifier Unit × M RawIdentifier Int) :=
  match find acc.2 sourceFn with
  | none => some acc
  | some delta =>
    if delta = 0 then some (acc.1, erase acc.2 sourceFn)
    else do
      let node ← find fns sourceFn
      if (node.refCount : Int) + delta = 0 then
        some (assign acc.1 sourceFn (), erase acc.2 sourceFn)
      else some acc

structure UpdateLists (M : Type → Type → Type) (K V : Type) where
  toBeCreated : M RawIdentifier Unit
  fnDelete : M RawIdentifier Unit
  fnUpdateCopy : List (FNEntriesUpdate K V)
  fnUpdateMove : List (FNEntriesUpdate K V)

/-- One target of a source. The first one that is still to be created may reuse a source that
would be deleted otherwise. -/
def planTarget (sourceId : RawIdentifier) (acc : UpdateLists M K V × Bool)
    (target : RawIdentifier × FNEntriesUpdateData K V) : UpdateLists M K V × Bool :=
  if contains acc.1.toBeCreated target.1 then
    let update : FNEntriesUpdate K V := ⟨sourceId, target.1, target.2.entries, target.2.mode⟩
    let toBeCreated := erase acc.1.toBeCreated target.1
    if acc.2 then
      (⟨toBeCreated, erase acc.1.fnDelete sourceId, acc.1.fnUpdateCopy,
        acc.1.fnUpdateMove ++ [update]⟩, false)
    else
      (⟨toBeCreated, acc.1.fnDelete, acc.1.fnUpdateCopy ++ [update], acc.1.fnUpdateMove⟩, false)
  else acc

def planSource (acc : UpdateLists M K V)
    (source : RawIdentifier × M RawIdentifier (FNEntriesUpdateData K V)) : UpdateLists M K V :=
  ((entries source.2).foldl (planTarget source.1) (acc, contains acc.fnDelete source.1)).1

/-- Changes of single-entry nodes that leave the reference count as it is are dropped. -/
def dropIfUnchanged (changes : M RawIdentifier (SENChange K V))
    (update : RawIdentifier × SENChange K V) : M RawIdentifier (SENChange K V) :=
  if update.2.refCountDelta = 0 then erase changes update.1 else changes

def ofRequests (fns : M RawIdentifier (FullNode M K V)) (ur : UpdateRequests M K V) :
    Option (UpdatePlan M K V) := do
  let (fnDelete, fnDeltas) ← ((entries ur.fnDeletionCandidates).map Prod.fst).foldlM
    (planDeletion fns) (empty, ur.fnDeltas)
  let lists := (entries ur.fnUpdateEntries).foldl planSource ⟨fnToBeCreated fns ur, fnDelete, [], []⟩
  -- what is still to be created is created from scratch
  let fnCreate := (entries lists.toBeCreated).map
    (fun (id, _) => (⟨id, (find ur.fnCreations id).getD []⟩ : FNCreation K V))
  let senChanges := (entries ur.senChanges).foldl dropIfUnchanged ur.senChanges
  some ⟨fnCreate, lists.fnUpdateCopy, lists.fnUpdateMove, lists.fnDelete, fnDeltas, senChanges⟩

end UpdatePlan

end Hypertrie
