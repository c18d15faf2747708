import Hypertrie.BulkUpdaterRun
import Hypertrie.ProducerConsumerQueue

/-! The asynchronous bulk updater with the ring of slots in place of a list. A
call of `add` or a read of the worker takes several steps, between which the
other thread goes on. -/

namespace Hypertrie

open UnorderedMap

variable {M : Type → Type → Type} [UnorderedMap M] {K V : Type}
variable [DecidableEq K] [DecidableEq V] [Inhabited K]

deriving instance DecidableEq for ProducerAction

/-- `rest` is the updater without its queue. -/
structure QueuedBulkUpdater (M : Type → Type → Type) (K V : Type) where
  queue : ProducerConsumerQueue (SingleEntry K V)
  write : WriteCall (SingleEntry K V)
  read : ReadCall (SingleEntry K V)
  rest : BulkUpdater M K V

/-- The updater with these entries in its queue. -/
def BulkUpdater.withQueue (u : BulkUpdater M K V) (entryQueue : List (SingleEntry K V)) :
    BulkUpdater M K V :=
  { u with entryQueue := entryQueue }

/-- A step of the producer, or of the worker as `none`. -/
def BulkUpdater.step (t : HypertrieTrait K V) (cfg : BulkUpdaterSettings) (u : BulkUpdater M K V) :
    Option (ProducerAction K) → Option (BulkUpdater M K V)
  | none => u.workerStep t cfg
  | some action => u.producerStep t cfg action

namespace QueuedBulkUpdater

variable (t : HypertrieTrait K V) (cfg : BulkUpdaterSettings)

/-- The constructor gives the queue as many slots as a bulk has entries. -/
def new (nodec : RawIdentifier) (nodeStorage : NodeStorage M K V) :
    Option (QueuedBulkUpdater M K V) := do
  let queue ← ProducerConsumerQueue.new cfg.bulkSize
  pure ⟨queue, .idle, .idle, .new nodec nodeStorage⟩

/-- What the producer does when `write` has returned: `add` returns, or tries again. -/
def writeReturned (rest : BulkUpdater M K V) (entry : SingleEntry K V) (success : Bool) :
    BulkUpdater M K V :=
  if success then { rest with added := rest.added ++ [entry], producer := .idle } else rest

/-- What the worker does when `read` has returned. -/
def readReturned (rest : BulkUpdater M K V) (entry : Option (SingleEntry K V)) :
    Option (BulkUpdater M K V) :=
  match entry with
  | some entry => BulkUpdater.takeEntry t cfg { rest with worker := .bulkLoop } entry
  | none => some { rest with worker := .checkingStop }

/-- A step of one of the threads. It shows the step of the updater that it completes, if any. -/
def step (u : QueuedBulkUpdater M K V) (action : Option (ProducerAction K)) :
    Option (QueuedBulkUpdater M K V × Option (Option (ProducerAction K))) :=
  match action, u.rest.producer, u.rest.worker with
  | some .tryWrite, .adding entry, _ => do
    let (queue, write, returned) ← u.queue.writeStep entry u.write
    match returned with
    | none => pure ({ u with queue := queue, write := write }, none)
    | some success =>
      pure ({ u with queue := queue, write := write, rest := writeReturned u.rest entry success },
        some action)
  | none, _, .reading => do
    let (queue, read, returned) ← u.queue.readStep u.read
    match returned with
    | none => pure ({ u with queue := queue, read := read }, none)
    | some entry => do
      let rest ← readReturned t cfg u.rest entry
      pure ({ u with queue := queue, read := read, rest := rest }, some none)
  | action, _, _ => do
    let rest ← u.rest.step t cfg action
    pure ({ u with rest := rest }, some action)

end QueuedBulkUpdater

variable {t : HypertrieTrait K V} {cfg : BulkUpdaterSettings} {u : BulkUpdater M K V}
  {q q' : QueuedBulkUpdater M K V} {items : List (SingleEntry K V)} {entry : SingleEntry K V}
  {action : ProducerAction K} {actions events : List (Option (ProducerAction K))}
  {event : Option (Option (ProducerAction K))}
  {nodec : RawIdentifier} {nodeStorage : NodeStorage M K V}

namespace BulkUpdater

section QueueUnused

theorem takeEntry_withQueue (t : HypertrieTrait K V) (cfg : BulkUpdaterSettings)
    (u : BulkUpdater M K V) (items : List (SingleEntry K V)) (entry : SingleEntry K V) :
    takeEntry t cfg (u.withQueue items) entry =
      (takeEntry t cfg u entry).map fun u' => u'.withQueue items := by
  unfold takeEntry
  dsimp only [withQueue]
  by_cases hseen : contains u.deDuplication (t.encodeSingleEntry cfg.depth entry) = true
  · simp only [hseen, if_true, Option.map_some]
  · simp only [hseen, Bool.false_eq_true, if_false, Option.map_map]
    congr 1
    funext value
    dsimp only [Function.comp]
    split <;> rfl

/-- Only a read looks at the queue. -/
theorem workerStep_withQueue (t : HypertrieTrait K V) (cfg : BulkUpdaterSettings) (hw : u.worker ≠ .reading)
    (items : List (SingleEntry K V)) :
    (u.withQueue items).workerStep t cfg = (u.workerStep t cfg).map fun u' => u'.withQueue items := by
  obtain ⟨entryQueue, pleaseFlush, stopRequested, producer, added, worker, done, newEntries,
    deDuplication, nodec, nodeStorage⟩ := u
  cases worker with
  | reading => exact absurd rfl hw
  | bulkStart => cases done <;> rfl
  | checkingStop => cases stopRequested <;> rfl
  | applying =>
    simp only [BulkUpdater.workerStep, withQueue, Option.map_map]
    rfl
  | _ => rfl

omit [UnorderedMap M] [DecidableEq K] [DecidableEq V] [Inhabited K] in
/-- Only a write looks at the queue. -/
theorem producerStep_withQueue (t : HypertrieTrait K V) (cfg : BulkUpdaterSettings)
    (hp : ∀ entry, u.producer = .adding entry → action ≠ .tryWrite)
    (items : List (SingleEntry K V)) :
    (u.withQueue items).producerStep t cfg action =
      (u.producerStep t cfg action).map fun u' => u'.withQueue items := by
  obtain ⟨entryQueue, pleaseFlush, stopRequested, producer, added, worker, done, newEntries,
    deDuplication, nodec, nodeStorage⟩ := u
  cases producer with
  | idle => cases action <;> rfl
  | adding entry =>
    cases action with
    | tryWrite => exact absurd rfl (hp entry rfl)
    | _ => rfl
  | flushing =>
    cases action with
    | checkFlush => cases pleaseFlush <;> rfl
    | _ => rfl
  | joining =>
    cases action with
    | join => cases worker <;> rfl
    | _ => rfl
  | destroyed => cases action <;> rfl

end QueueUnused

end BulkUpdater

theorem ProducerConsumerQueue.record_writeStep {T : Type} {queue queue' : ProducerConsumerQueue T}
    {record : T} {w w' : WriteCall T} {returned : Option Bool}
    (h : queue.writeStep record w = some (queue', w', returned)) {record' : T}
    (hrecord : w'.record? = some record') : w.record? = some record' ∨ record' = record := by
  cases w with
  | idle =>
    obtain ⟨-, rfl, -⟩ := by simpa [writeStep] using h
    exact Or.inr (Option.some.inj hrecord).symm
  | loaded record currentWrite =>
    simp only [writeStep] at h
    split at h
    · obtain ⟨-, rfl, -⟩ := by simpa using h
      exact Or.inl hrecord
    · obtain ⟨-, rfl, -⟩ := by simpa using h
      simp [WriteCall.record?] at hrecord
  | vacant record currentWrite nextRecord =>
    simp only [writeStep, Option.bind_eq_bind, Option.bind_eq_some_iff, Option.pure_def,
      Option.some.injEq, Prod.mk.injEq] at h
    obtain ⟨_, -, -, rfl, -⟩ := h
    exact Or.inl hrecord
  | constructed record nextRecord =>
    obtain ⟨-, rfl, -⟩ := by simpa [writeStep] using h
    simp [WriteCall.record?] at hrecord

namespace QueuedBulkUpdater

section Refinement

/-- The updater with a list for its queue that stands for this one. -/
structure Represents (cfg : BulkUpdaterSettings) (q : QueuedBulkUpdater M K V)
    (u : BulkUpdater M K V) (items : List (SingleEntry K V)) : Prop where
  size : q.queue.size = cfg.bulkSize
  holds : q.queue.Holds q.write q.read items
  updater : u = q.rest.withQueue items
  writing : ∀ entry, q.write.record? = some entry → q.rest.producer = .adding entry

/-- One step of a write. -/
theorem step_write (hp : q.rest.producer = .adding entry) :
    q.step t cfg (some .tryWrite) = (q.queue.writeStep entry q.write).map fun out =>
      (⟨out.1, out.2.1, q.read, (out.2.2.map (writeReturned q.rest entry)).getD q.rest⟩,
        out.2.2.map fun _ => some .tryWrite) := by
  obtain ⟨queue, write, read, rest⟩ := q
  replace hp : rest.producer = .adding entry := hp
  simp only [step, hp]
  cases queue.writeStep entry write with
  | none => rfl
  | some out =>
    obtain ⟨queue', write', returned⟩ := out
    cases returned <;> rfl

/-- One step of a read. -/
theorem step_read (hw : q.rest.worker = .reading) :
    q.step t cfg none = (q.queue.readStep q.read).bind fun out =>
      match out.2.2 with
      | none => some (⟨out.1, q.write, out.2.1, q.rest⟩, none)
      | some entry => (readReturned t cfg q.rest entry).map fun rest =>
        (⟨out.1, q.write, out.2.1, rest⟩, some none) := by
  obtain ⟨queue, write, read, rest⟩ := q
  replace hw : rest.worker = .reading := hw
  simp only [step, hw]
  cases queue.readStep read with
  | none => rfl
  | some out =>
    obtain ⟨queue', read', returned⟩ := out
    cases returned with
    | none => rfl
    | some entry =>
      simp only [Option.bind_eq_bind, Option.bind_some]
      cases readReturned t cfg rest entry <;> rfl

theorem step_producer (hp : ∀ entry, q.rest.producer = .adding entry → action ≠ .tryWrite) :
    q.step t cfg (some action) = (q.rest.producerStep t cfg action).map fun rest =>
      ({ q with rest := rest }, some (some action)) := by
  obtain ⟨queue, write, read, rest⟩ := q
  cases action with
  | tryWrite =>
    cases hprod : rest.producer with
    | adding entry => exact absurd rfl (hp entry hprod)
    | _ =>
      simp only [step, hprod]
      cases hstep : rest.producerStep t cfg .tryWrite <;> simp [BulkUpdater.step, hstep]
  | callAdd key =>
    cases hstep : rest.producerStep t cfg (.callAdd key) <;> simp [step, BulkUpdater.step, hstep]
  | callFlush =>
    cases hstep : rest.producerStep t cfg .callFlush <;> simp [step, BulkUpdater.step, hstep]
  | checkFlush =>
    cases hstep : rest.producerStep t cfg .checkFlush <;> simp [step, BulkUpdater.step, hstep]
  | requestStop =>
    cases hstep : rest.producerStep t cfg .requestStop <;> simp [step, BulkUpdater.step, hstep]
  | join =>
    cases hstep : rest.producerStep t cfg .join <;> simp [step, BulkUpdater.step, hstep]

theorem step_worker (hw : q.rest.worker ≠ .reading) :
    q.step t cfg none = (q.rest.workerStep t cfg).map fun rest =>
      ({ q with rest := rest }, some none) := by
  obtain ⟨queue, write, read, rest⟩ := q
  cases hwork : rest.worker with
  | reading => exact absurd hwork hw
  | _ =>
    simp only [step, hwork]
    cases hstep : rest.workerStep t cfg <;> simp [BulkUpdater.step, hstep]

theorem producer_of_workerStep {u' : BulkUpdater M K V} (h : u.workerStep t cfg = some u') :
    u'.producer = u.producer := by
  cases workerMove_of_step h <;> rfl

theorem producer_readReturned {rest rest' : BulkUpdater M K V} {entry : Option (SingleEntry K V)}
    (h : readReturned t cfg rest entry = some rest') : rest'.producer = rest.producer := by
  cases entry with
  | none => exact (Option.some.inj h) ▸ rfl
  | some entry =>
    obtain ⟨N, D, rfl⟩ := takeEntry_shape h
    rfl

/-- A write that goes on shows nothing; one that returns is a step of the updater. -/
theorem Represents.write (h : Represents cfg q u items) (hp : q.rest.producer = .adding entry) :
    ∃ q' event, q.step t cfg (some .tryWrite) = some (q', event) ∧
      ∃ u' items', event.toList.foldlM (BulkUpdater.step t cfg) u = some u' ∧
        Represents cfg q' u' items' := by
  obtain ⟨queue', write', returned, hwrite, hsize, hcase⟩ := h.holds.writeStep entry
  have hcap : q.queue.capacity = cfg.queueCapacity := by
    rw [ProducerConsumerQueue.capacity, h.size, BulkUpdaterSettings.queueCapacity]
  have hu := h.updater
  refine ⟨_, _, by rw [step_write hp, hwrite, Option.map_some], ?_⟩
  rcases hcase with ⟨rfl, hq⟩ | ⟨record, hrec, rfl, rfl, hroom, hq⟩ |
    ⟨record, hrec, rfl, rfl, hfull, hq⟩
  · refine ⟨u, items, rfl, hsize.trans h.size, hq, hu, fun e he => ?_⟩
    rcases ProducerConsumerQueue.record_writeStep hwrite he with he | rfl
    · exact h.writing e he
    · exact hp
  · have hentry : record = entry := by simpa [hp, eq_comm] using h.writing record hrec
    rw [hcap] at hroom
    subst hentry hu
    refine ⟨_, items ++ [record], ?_, hsize.trans h.size, hq, rfl, fun e he => by cases he⟩
    simp [BulkUpdater.step, BulkUpdater.producerStep, BulkUpdater.withQueue, hp, hroom, writeReturned]
  · have hentry : record = entry := by simpa [hp, eq_comm] using h.writing record hrec
    rw [hcap] at hfull
    subst hentry hu
    refine ⟨_, items, ?_, hsize.trans h.size, hq, rfl, fun e he => by cases he⟩
    simp [BulkUpdater.step, BulkUpdater.producerStep, BulkUpdater.withQueue, hp, hfull, writeReturned]

/-- A read that goes on shows nothing; one that returns is a step of the updater, and gets stuck
where that does. -/
theorem Represents.read (h : Represents cfg q u items) (hw : q.rest.worker = .reading) :
    (∃ q' event, q.step t cfg none = some (q', event) ∧
      ∃ u' items', event.toList.foldlM (BulkUpdater.step t cfg) u = some u' ∧
        Represents cfg q' u' items') ∨ q.step t cfg none = none ∧ u.workerStep t cfg = none := by
  obtain ⟨queue', read', returned, hread, hsize, hcase⟩ := h.holds.readStep
  have hu := h.updater
  rw [step_read hw, hread, Option.bind_some]
  rcases hcase with ⟨rfl, hq⟩ | ⟨record, tail, rfl, rfl, hq⟩ | ⟨rfl, rfl, hq⟩
  · exact Or.inl ⟨_, _, rfl, u, items, rfl, hsize.trans h.size, hq, hu, h.writing⟩
  · have hstep : u.workerStep t cfg =
        (readReturned t cfg q.rest (some record)).map fun rest => rest.withQueue tail := by
      subst hu
      have htake := BulkUpdater.takeEntry_withQueue t cfg { q.rest with worker := .bulkLoop } tail record
      rw [readReturned, ← htake]
      simp [BulkUpdater.workerStep, BulkUpdater.withQueue, hw]
    cases hrest : readReturned t cfg q.rest (some record) with
    | none => exact Or.inr ⟨by simp [hrest], by rw [hstep, hrest]; rfl⟩
    | some rest =>
      refine Or.inl ⟨_, _, by simp only [hrest]; rfl, rest.withQueue tail, tail, ?_, hsize.trans h.size,
        hq, rfl, fun e he => ?_⟩
      · simp [BulkUpdater.step, hstep, hrest]
      · rw [producer_readReturned hrest]
        exact h.writing e he
  · refine Or.inl ⟨_, _, rfl, _, [], ?_, hsize.trans h.size, hq, rfl, h.writing⟩
    subst hu
    simp [BulkUpdater.step, BulkUpdater.workerStep, BulkUpdater.withQueue, hw]

/-- Each step is a step of the updater, or shows nothing. It gets stuck only where that does. -/
theorem Represents.step (h : Represents cfg q u items) (action : Option (ProducerAction K)) :
    (∃ q' event, q.step t cfg action = some (q', event) ∧
      ∃ u' items', event.toList.foldlM (BulkUpdater.step t cfg) u = some u' ∧
        Represents cfg q' u' items') ∨
      q.step t cfg action = none ∧ u.step t cfg action = none := by
  have hu := h.updater
  cases action with
  | none =>
    by_cases hw : q.rest.worker = .reading
    · exact h.read hw
    · have hstep := BulkUpdater.workerStep_withQueue t cfg hw items
      rw [← hu] at hstep
      rw [step_worker hw]
      cases hrest : q.rest.workerStep t cfg with
      | none =>
        rw [hrest] at hstep
        exact Or.inr ⟨rfl, hstep⟩
      | some rest =>
        rw [hrest] at hstep
        refine Or.inl ⟨_, _, rfl, rest.withQueue items, items, ?_, h.size, h.holds, rfl, ?_⟩
        · simpa [BulkUpdater.step] using hstep
        · intro e he
          exact (producer_of_workerStep hrest).trans (h.writing e he)
  | some action =>
    by_cases hp : ∃ entry, q.rest.producer = .adding entry ∧ action = .tryWrite
    · obtain ⟨entry, hp, rfl⟩ := hp
      exact Or.inl (h.write hp)
    · replace hp : ∀ entry, q.rest.producer = .adding entry → action ≠ .tryWrite :=
        fun entry he ha => hp ⟨entry, he, ha⟩
      have hstep := BulkUpdater.producerStep_withQueue t cfg hp items
      rw [← hu] at hstep
      rw [step_producer hp]
      cases hrest : q.rest.producerStep t cfg action with
      | none =>
        rw [hrest] at hstep
        exact Or.inr ⟨rfl, hstep⟩
      | some rest =>
        rw [hrest] at hstep
        refine Or.inl ⟨_, _, rfl, rest.withQueue items, items, ?_, h.size, h.holds, rfl, ?_⟩
        · simpa [BulkUpdater.step] using hstep
        · -- a write under way leaves the producer no other step
          intro e he
          have hadding := h.writing e he
          cases producerMove_of_step hrest with
          | write e' hp' => exact absurd rfl (hp e' hp')
          | queueFull e' hp' => exact absurd rfl (hp e' hp')
          | callAdd key hp' => exact absurd (hp'.symm.trans hadding) (by simp)
          | callFlush hp' => exact absurd (hp'.symm.trans hadding) (by simp)
          | flushPending hp' => exact absurd (hp'.symm.trans hadding) (by simp)
          | flushed hp' => exact absurd (hp'.symm.trans hadding) (by simp)
          | requestStop hp' => exact absurd (hp'.symm.trans hadding) (by simp)
          | joined hp' => exact absurd (hp'.symm.trans hadding) (by simp)
          | joining hp' => exact absurd (hp'.symm.trans hadding) (by simp)

theorem simulates : Labelled.Simulates (step (M := M) t cfg) (BulkUpdater.step t cfg)
    fun q u => ∃ items, Represents cfg q u items := by
  intro q u action q' event ⟨items, h⟩ hstep
  rcases h.step (t := t) action with ⟨q'', event', hstep', u', items', hu', h'⟩ | ⟨hnone, -⟩
  · obtain ⟨rfl, rfl⟩ := Prod.mk.inj (Option.some.inj (hstep'.symm.trans hstep))
    exact ⟨u', hu', items', h'⟩
  · exact absurd (hstep.symm.trans hnone) (by simp)

theorem runUpdater_eq (events : List (Option (ProducerAction K))) :
    runUpdater t cfg u events = events.foldlM (BulkUpdater.step t cfg) u := by
  unfold runUpdater
  congr 1

/-- Whatever the order of the steps of the two threads and of their calls on the ring of slots, the
updater does what it does with a list for its queue, and gets stuck only where that does. -/
theorem refines_bulkUpdater
    (hrun : ((new cfg nodec nodeStorage).bind fun q => Labelled.run (step t cfg) q actions) =
      some (q', events)) :
    ∃ items, runUpdater t cfg (.new nodec nodeStorage) events = some (q'.rest.withQueue items) ∧
      q'.queue.Holds q'.write q'.read items ∧
      ∀ action, q'.step t cfg action = none → (q'.rest.withQueue items).step t cfg action = none := by
  obtain ⟨q, hnew, hrun⟩ := Option.bind_eq_some_iff.mp hrun
  obtain ⟨queue, hqueue, hq⟩ := Option.bind_eq_some_iff.mp hnew
  obtain rfl := Option.some.inj hq
  obtain ⟨hsize, -, hholds⟩ := ProducerConsumerQueue.new_holds hqueue
  have hstart : Represents cfg ⟨queue, .idle, .idle, .new nodec nodeStorage⟩ (.new nodec nodeStorage) [] :=
    ⟨hsize, hholds, rfl, fun e he => by cases he⟩
  obtain ⟨u', hevents, items, h⟩ := simulates.run ⟨[], hstart⟩ hrun
  refine ⟨items, ?_, h.holds, fun action hstuck => ?_⟩
  · rw [runUpdater_eq, hevents, h.updater]
  · rcases h.step (t := t) action with ⟨q'', event', hstep', -⟩ | ⟨-, hnone⟩
    · exact absurd (hstuck.symm.trans hstep') (by simp)
    · rwa [← h.updater]

/-- An entry is read while the next one is written. -/
theorem refines_bulkUpdater_two : ∃ q' : QueuedBulkUpdater AssocMap (BitVec 64) Bool, ∃ events items,
    events = [some (.callAdd [5]), none, none, some .tryWrite, some (.callAdd [6]), some .tryWrite,
      none] ∧
    runUpdater defaultBoolTrait ⟨.insert, 1, 2⟩ (.new seed NodeStorage.empty) events =
        some (q'.rest.withQueue items) ∧
      q'.queue.Holds q'.write q'.read items ∧
      ∀ action, q'.step defaultBoolTrait ⟨.insert, 1, 2⟩ action = none →
        (q'.rest.withQueue items).step defaultBoolTrait ⟨.insert, 1, 2⟩ action = none := by
  have hrun : ((new (M := AssocMap) ⟨.insert, 1, 2⟩ seed NodeStorage.empty).bind fun q =>
      Labelled.run (step defaultBoolTrait ⟨.insert, 1, 2⟩) q
        [some (.callAdd [5]), none, none, some .tryWrite, some .tryWrite, some .tryWrite,
          some .tryWrite, none, some (.callAdd [6]), none, some .tryWrite, none,
          some .tryWrite, none, some .tryWrite, none]).map Prod.snd =
      some [some (.callAdd [5]), none, none, some .tryWrite, some (.callAdd [6]), some .tryWrite,
        none] := by decide +kernel
  obtain ⟨⟨q', events⟩, hrun, hevents⟩ := Option.map_eq_some_iff.mp hrun
  obtain ⟨items, hitems⟩ := refines_bulkUpdater hrun
  exact ⟨q', events, items, hevents, hitems⟩

end Refinement

end QueuedBulkUpdater

end Hypertrie
