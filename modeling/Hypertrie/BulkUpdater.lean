import Hypertrie.SetValue

/-! The asynchronous bulk updater: a producer that adds entries to a queue and
a worker that takes them from it and applies them in bulks. Each step of either
side has at most one access to what they share. -/

namespace Hypertrie

open UnorderedMap

variable {M : Type → Type → Type} [UnorderedMap M] {K V : Type}
variable [DecidableEq K] [DecidableEq V] [Inhabited K]

inductive BulkUpdaterMode where
  | insert
  | remove
  deriving DecidableEq, Repr

/-- Where the thread is that adds, flushes and in the end destroys the updater. -/
inductive ProducerState (K V : Type) where
  | idle
  | adding (entry : SingleEntry K V)
  | flushing
  | joining
  | destroyed
  deriving DecidableEq

/-- Where the worker thread is. -/
inductive WorkerState where
  | bulkStart
  | bulkLoop
  | reading
  | checkingStop
  | applying
  | resetFlush
  | exited
  deriving DecidableEq, Repr

/-- `added` lists the entries whose `add` has returned; no step reads it. -/
structure BulkUpdater (M : Type → Type → Type) (K V : Type) where
  entryQueue : List (SingleEntry K V)
  pleaseFlush : Bool
  stopRequested : Bool
  producer : ProducerState K V
  added : List (SingleEntry K V)
  worker : WorkerState
  done : Bool
  newEntries : List (SingleEntry K V)
  deDuplication : M RawIdentifier Unit
  nodec : RawIdentifier
  nodeStorage : NodeStorage M K V

/-- What the producer does next: it starts a call, or goes on with the one it is in. -/
inductive ProducerAction (K : Type) where
  | callAdd (key : List K)
  | tryWrite
  | callFlush
  | checkFlush
  | requestStop
  | join

/-- What an updater is constructed with. -/
structure BulkUpdaterSettings where
  mode : BulkUpdaterMode
  depth : Nat
  requestedBulkSize : Nat

namespace BulkUpdaterSettings

def bulkSize (cfg : BulkUpdaterSettings) : Nat :=
  if 2 < cfg.requestedBulkSize then cfg.requestedBulkSize else 2

def deduplicationMaxSize (cfg : BulkUpdaterSettings) : Nat := 4 * cfg.bulkSize

/-- A queue of size `n` has `n - 1` usable slots. -/
def queueCapacity (cfg : BulkUpdaterSettings) : Nat := cfg.bulkSize - 1

end BulkUpdaterSettings

namespace BulkUpdater

variable (t : HypertrieTrait K V) (cfg : BulkUpdaterSettings)

def new (nodec : RawIdentifier) (nodeStorage : NodeStorage M K V) : BulkUpdater M K V :=
  ⟨[], false, false, .idle, [], .bulkStart, false, [], empty, nodec, nodeStorage⟩

/-- A step of the producer, if it is where it can make that step. -/
def producerStep (u : BulkUpdater M K V) (action : ProducerAction K) : Option (BulkUpdater M K V) :=
  match u.producer, action with
  | .idle, .callAdd key => some { u with producer := .adding (t.makeEntry key t.one) }
  | .adding entry, .tryWrite =>
    if u.entryQueue.length < cfg.queueCapacity then
      some { u with
        entryQueue := u.entryQueue ++ [entry]
        added := u.added ++ [entry]
        producer := .idle }
    else some u
  | .idle, .callFlush => some { u with pleaseFlush := true, producer := .flushing }
  | .flushing, .checkFlush => some (if u.pleaseFlush then u else { u with producer := .idle })
  | .idle, .requestStop => some { u with stopRequested := true, producer := .joining }
  | .joining, .join => some (if u.worker = .exited then { u with producer := .destroyed } else u)
  | _, _ => none

/-- The de-duplication set after an entry was read. When it is full it is reduced to the entries
already chosen. -/
def deDuplicate (deDuplication : M RawIdentifier Unit) (newEntries : List (SingleEntry K V))
    (id : RawIdentifier) : M RawIdentifier Unit :=
  let deDuplication := emplace deDuplication id ()
  if size deDuplication = cfg.deduplicationMaxSize then
    newEntries.foldl (fun set e => emplace set (t.encodeSingleEntry cfg.depth e) ()) empty
  else deDuplication

/-- Whether an entry that was not seen before is for the current bulk. -/
def isChosen (mode : BulkUpdaterMode) (contained : Bool) : Bool :=
  match mode with
  | .insert => !contained
  | .remove => contained

/-- What the worker does with an entry it has read. -/
def takeEntry (u : BulkUpdater M K V) (entry : SingleEntry K V) : Option (BulkUpdater M K V) :=
  let id := t.encodeSingleEntry cfg.depth entry
  let seen := { u with deDuplication := deDuplicate t cfg u.deDuplication u.newEntries id }
  if contains u.deDuplication id then some seen
  else
    (RawHypertrieContext.get t u.nodeStorage cfg.depth u.nodec entry.key).map fun value =>
      if isChosen cfg.mode (value ≠ t.zero) then { seen with newEntries := u.newEntries ++ [entry] }
      else seen

def applyBulk (u : BulkUpdater M K V) : Option (RawIdentifier × NodeStorage M K V) :=
  match cfg.mode with
  | .insert => RawHypertrieContext.insert t u.nodeStorage cfg.depth u.nodec u.newEntries
  | .remove => RawHypertrieContext.remove t u.nodeStorage cfg.depth u.nodec u.newEntries

/-- A step of the worker. -/
def workerStep (u : BulkUpdater M K V) : Option (BulkUpdater M K V) :=
  match u.worker with
  | .bulkStart =>
    some (if u.done then { u with worker := .exited }
      else { u with deDuplication := empty, worker := .bulkLoop })
  | .bulkLoop =>
    some { u with
      worker := if u.newEntries.length < cfg.bulkSize ∧ u.pleaseFlush = false then .reading
        else .applying }
  | .reading =>
    match u.entryQueue with
    | entry :: queue => takeEntry t cfg { u with entryQueue := queue, worker := .bulkLoop } entry
    | [] => some { u with worker := .checkingStop }
  | .checkingStop =>
    some (if u.stopRequested then { u with done := true, worker := .applying }
      else { u with worker := .bulkLoop })
  | .applying =>
    (applyBulk t cfg u).map fun (nodec, nodeStorage) =>
      { u with
        nodec := nodec
        nodeStorage := nodeStorage
        newEntries := []
        worker := .resetFlush }
  | .resetFlush => some { u with pleaseFlush := false, worker := .bulkStart }
  | .exited => some u

end BulkUpdater

end Hypertrie
