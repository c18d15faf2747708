import Hypertrie.BulkUpdaterRun

/-! The synchronous bulk updater: entries are collected and applied in bulks
by the thread that adds them. -/

namespace Hypertrie

open UnorderedMap

variable {M : Type → Type → Type} [UnorderedMap M] {K V : Type}
variable [DecidableEq K] [DecidableEq V] [Inhabited K]

structure SynchronousBulkUpdater (M : Type → Type → Type) (K V : Type) where
  newEntries : List (SingleEntry K V)
  deDuplication : M RawIdentifier Unit
  nodec : RawIdentifier
  nodeStorage : NodeStorage M K V

inductive UpdaterCall (K : Type) where
  | add (key : List K)
  | flush

namespace SynchronousBulkUpdater

variable (t : HypertrieTrait K V) (cfg : BulkUpdaterSettings)

def bulkSize (cfg : BulkUpdaterSettings) : Nat :=
  if cfg.requestedBulkSize = 0 then 1 else cfg.requestedBulkSize

/-- Four times the size that was requested, which may be 0. -/
def deduplicationMaxSize (cfg : BulkUpdaterSettings) : Nat := 4 * cfg.requestedBulkSize

def new (nodec : RawIdentifier) (nodeStorage : NodeStorage M K V) : SynchronousBulkUpdater M K V :=
  ⟨[], empty, nodec, nodeStorage⟩

/-- The bulk is inserted in both modes. -/
def flush (u : SynchronousBulkUpdater M K V) : Option (SynchronousBulkUpdater M K V) :=
  if u.newEntries = [] then some u
  else
    (RawHypertrieContext.insert t u.nodeStorage cfg.depth u.nodec u.newEntries).map
      fun (nodec, nodeStorage) =>
        { u with nodec := nodec, nodeStorage := nodeStorage, newEntries := [] }

/-- The de-duplication set after an entry was added. When it is full it is emptied. -/
def deDuplicate (deDuplication : M RawIdentifier Unit) (id : RawIdentifier) : M RawIdentifier Unit :=
  let deDuplication := emplace deDuplication id ()
  if size deDuplication = deduplicationMaxSize cfg then empty else deDuplication

def push (u : SynchronousBulkUpdater M K V) (entry : SingleEntry K V) :
    Option (SynchronousBulkUpdater M K V) :=
  let u := { u with newEntries := u.newEntries ++ [entry] }
  if bulkSize cfg ≤ u.newEntries.length then flush t cfg u else some u

def add (u : SynchronousBulkUpdater M K V) (entry : SingleEntry K V) :
    Option (SynchronousBulkUpdater M K V) :=
  let id := t.encodeSingleEntry cfg.depth entry
  let seen := { u with deDuplication := deDuplicate cfg u.deDuplication id }
  if contains u.deDuplication id then some seen
  else
    (RawHypertrieContext.get t u.nodeStorage cfg.depth u.nodec entry.key).bind fun value =>
      if BulkUpdater.isChosen cfg.mode (value ≠ t.zero) then push t cfg seen entry else some seen

/-- Adding an entry of another depth throws. -/
def call (u : SynchronousBulkUpdater M K V) (c : UpdaterCall K) :
    Option (SynchronousBulkUpdater M K V) :=
  match c with
  | .add key => if key.length = cfg.depth then add t cfg u (t.makeEntry key t.one) else none
  | .flush => flush t cfg u

/-- Any calls, and the flush in the destructor. -/
def run (u : SynchronousBulkUpdater M K V) (calls : List (UpdaterCall K)) :
    Option (SynchronousBulkUpdater M K V) :=
  (calls.foldlM (call t cfg) u).bind (flush t cfg)

end SynchronousBulkUpdater

end Hypertrie
