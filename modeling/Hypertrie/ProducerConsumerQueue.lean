import Hypertrie.Library.BoundedQueue
import Hypertrie.Library.Simulation
import Mathlib.Data.List.Basic
import Mathlib.Logic.Basic
import Mathlib.Tactic.SplitIfs

/-! The queue between the producer and the worker of a bulk updater: a ring of
slots with one index that only the consumer stores and one that only the
producer stores. Each step of a call has at most one access to what is shared. -/

namespace Hypertrie

/-- A slot without a record is raw memory. -/
structure ProducerConsumerQueue (T : Type) where
  size : Nat
  records : List (Option T)
  readIndex : Nat
  writeIndex : Nat

/-- How far a call of `write` is. -/
inductive WriteCall (T : Type) where
  | idle
  | loaded (record : T) (currentWrite : Nat)
  | vacant (record : T) (currentWrite : Nat) (nextRecord : Nat)
  | constructed (record : T) (nextRecord : Nat)

/-- How far a call of `read` is. -/
inductive ReadCall (T : Type) where
  | idle
  | loaded (currentRead : Nat)
  | nonempty (currentRead : Nat) (nextRecord : Nat)
  | moved (record : T) (currentRead : Nat) (nextRecord : Nat)
  | destroyed (record : T) (nextRecord : Nat)

namespace ProducerConsumerQueue

variable {T : Type}

/-- The constructor requires at least two slots. -/
def new (size : Nat) : Option (ProducerConsumerQueue T) :=
  if 2 ≤ size then some ⟨size, List.replicate size none, 0, 0⟩ else none

def capacity (q : ProducerConsumerQueue T) : Nat := q.size - 1

/-- The index after this one. -/
def nextIndex (size index : Nat) : Nat := if index + 1 = size then 0 else index + 1

/-- Placement of a record, for which the slot has to be raw. -/
def construct (q : ProducerConsumerQueue T) (index : Nat) (record : T) :
    Option (ProducerConsumerQueue T) :=
  match q.records[index]? with
  | some none => some { q with records := q.records.set index (some record) }
  | _ => none

/-- The record of a slot, in which there has to be one. -/
def recordAt (q : ProducerConsumerQueue T) (index : Nat) : Option T := q.records[index]?.join

def destruct (q : ProducerConsumerQueue T) (index : Nat) : Option (ProducerConsumerQueue T) :=
  (q.recordAt index).map fun _ => { q with records := q.records.set index none }

/-- A step of `write`, with its result when it returns. An idle producer starts with the record
given. -/
def writeStep (q : ProducerConsumerQueue T) (record : T) :
    WriteCall T → Option (ProducerConsumerQueue T × WriteCall T × Option Bool)
  | .idle => some (q, .loaded record q.writeIndex, none)
  | .loaded record currentWrite =>
    let nextRecord := nextIndex q.size currentWrite
    if nextRecord ≠ q.readIndex then some (q, .vacant record currentWrite nextRecord, none)
    else some (q, .idle, some false)
  | .vacant record currentWrite nextRecord => do
    let q ← q.construct currentWrite record
    pure (q, .constructed record nextRecord, none)
  | .constructed _ nextRecord => some ({ q with writeIndex := nextRecord }, .idle, some true)

/-- A step of `read`. The result is the record, if there was one. -/
def readStep (q : ProducerConsumerQueue T) :
    ReadCall T → Option (ProducerConsumerQueue T × ReadCall T × Option (Option T))
  | .idle => some (q, .loaded q.readIndex, none)
  | .loaded currentRead =>
    if currentRead = q.writeIndex then some (q, .idle, some none)
    else some (q, .nonempty currentRead (nextIndex q.size currentRead), none)
  | .nonempty currentRead nextRecord => do
    let record ← q.recordAt currentRead
    pure (q, .moved record currentRead nextRecord, none)
  | .moved record currentRead nextRecord => do
    let q ← q.destruct currentRead
    pure (q, .destroyed record nextRecord, none)
  | .destroyed record nextRecord =>
    some ({ q with readIndex := nextRecord }, .idle, some (some record))

/-- The loop of the destructor over the slots that still hold a record. -/
def destroyLoop (q : ProducerConsumerQueue T) : Nat → Nat → Option (ProducerConsumerQueue T)
  | 0, _ => none
  | fuel + 1, readIndex =>
    if readIndex = q.writeIndex then some q
    else do
      let q ← q.destruct readIndex
      destroyLoop q fuel (nextIndex q.size readIndex)

def destroy (triviallyDestructible : Bool) (q : ProducerConsumerQueue T) :
    Option (ProducerConsumerQueue T) :=
  if triviallyDestructible then some q else destroyLoop q (q.size + 1) q.readIndex

end ProducerConsumerQueue

/-- A queue with the calls of its two threads. -/
structure QueueThreads (T : Type) where
  queue : ProducerConsumerQueue T
  write : WriteCall T
  read : ReadCall T

/-- Whose step is next. A producer without a call under way starts one with the record. -/
inductive QueueAction (T : Type) where
  | producer (record : T)
  | consumer

namespace QueueThreads

variable {T : Type}

def new (queue : ProducerConsumerQueue T) : QueueThreads T := ⟨queue, .idle, .idle⟩

end QueueThreads

namespace WriteCall

variable {T : Type}

/-- The record of the call under way. -/
def record? : WriteCall T → Option T
  | idle => none
  | loaded record _ => some record
  | vacant record _ _ => some record
  | constructed record _ => some record

/-- What `write` returned for the record. -/
def event (record : T) (success : Bool) : QueueEvent T :=
  if success then .wrote record else .foundFull record

/-- The record that is in its slot without being in the queue yet. -/
def placed : WriteCall T → List T
  | constructed record _ => [record]
  | _ => []

end WriteCall

namespace ReadCall

variable {T : Type}

/-- What `read` returned. -/
def event : Option T → QueueEvent T
  | some record => .took record
  | none => .foundEmpty

/-- Whether the front of the queue has left its slot. -/
def emptied : ReadCall T → Bool
  | destroyed _ _ => true
  | _ => false

end ReadCall

namespace QueueThreads

variable {T : Type}

def step (s : QueueThreads T) : QueueAction T → Option (QueueThreads T × Option (QueueEvent T))
  | .producer record => do
    let (queue, write, returned) ← s.queue.writeStep record s.write
    pure ({ s with queue := queue, write := write },
      s.write.record?.bind fun record => returned.map (WriteCall.event record))
  | .consumer => do
    let (queue, read, returned) ← s.queue.readStep s.read
    pure ({ s with queue := queue, read := read }, returned.map ReadCall.event)

end QueueThreads

namespace ProducerConsumerQueue

variable {T : Type} {q q' : ProducerConsumerQueue T} {w : WriteCall T} {r : ReadCall T}
  {items : List T} {size index k i : Nat}

section Indices

/-- The index `k` places after another. -/
def slotIndex (size index k : Nat) : Nat :=
  if index + k < size then index + k else index + k - size

theorem slotIndex_lt (hi : index < size) (hk : k ≤ size) : slotIndex size index k < size := by
  unfold slotIndex
  split_ifs <;> omega

theorem slotIndex_inj (hk : k < size) (hi : i < size) :
    slotIndex size index k = slotIndex size index i ↔ k = i := by
  unfold slotIndex
  split_ifs <;> omega

@[simp]
theorem slotIndex_zero (hi : index < size) : slotIndex size index 0 = index := by
  simp [slotIndex, hi]

theorem slotIndex_eq_self (hi : index < size) (hk : k ≤ size) :
    slotIndex size index k = index ↔ k = 0 ∨ k = size := by
  unfold slotIndex
  split_ifs <;> omega

theorem nextIndex_slotIndex (hi : index < size) (hk : k < size) :
    nextIndex size (slotIndex size index k) = slotIndex size index (k + 1) := by
  unfold nextIndex slotIndex
  split_ifs <;> omega

theorem slotIndex_nextIndex (hk : k < size) :
    slotIndex size (nextIndex size index) k = slotIndex size index (k + 1) := by
  unfold nextIndex slotIndex
  split_ifs <;> omega

theorem nextIndex_lt (hi : index < size) : nextIndex size index < size := by
  unfold nextIndex
  split_ifs <;> omega

theorem exists_slotIndex (hi : index < size) (hk : i < size) :
    ∃ k < size, slotIndex size index k = i := by
  by_cases h : index ≤ i
  · refine ⟨i - index, by omega, ?_⟩
    unfold slotIndex
    split_ifs <;> omega
  · refine ⟨size + i - index, by omega, ?_⟩
    unfold slotIndex
    split_ifs <;> omega

end Indices

section Contents

/-- What is in the slot `k` places after the read index. -/
def slotContent (items : List T) (w : WriteCall T) (r : ReadCall T) (k : Nat) : Option T :=
  if k = 0 ∧ r.emptied = true then none else (items ++ w.placed)[k]?

/-- What a call of `write` has found out about the queue. -/
def WriteAgrees (q : ProducerConsumerQueue T) (items : List T) : WriteCall T → Prop
  | .idle => True
  | .loaded _ currentWrite => currentWrite = q.writeIndex
  | .vacant _ currentWrite nextRecord => currentWrite = q.writeIndex ∧
      nextRecord = nextIndex q.size q.writeIndex ∧ items.length + 1 < q.size
  | .constructed _ nextRecord =>
    nextRecord = nextIndex q.size q.writeIndex ∧ items.length + 1 < q.size

/-- What a call of `read` has found out about the queue. -/
def ReadAgrees (q : ProducerConsumerQueue T) (items : List T) : ReadCall T → Prop
  | .idle => True
  | .loaded currentRead => currentRead = q.readIndex
  | .nonempty currentRead nextRecord => currentRead = q.readIndex ∧
      nextRecord = nextIndex q.size q.readIndex ∧ items ≠ []
  | .moved record currentRead nextRecord => currentRead = q.readIndex ∧
      nextRecord = nextIndex q.size q.readIndex ∧ items.head? = some record
  | .destroyed record nextRecord =>
    nextRecord = nextIndex q.size q.readIndex ∧ items.head? = some record

/-- The queue holds the items, from the read index on, while its two threads are in these calls.
All other slots are raw. -/
structure Holds (q : ProducerConsumerQueue T) (w : WriteCall T) (r : ReadCall T) (items : List T) :
    Prop where
  room : items.length < q.size
  read : q.readIndex < q.size
  write : q.writeIndex = slotIndex q.size q.readIndex items.length
  slots : ∀ k < q.size,
    q.records[slotIndex q.size q.readIndex k]? = some (slotContent items w r k)
  writing : q.WriteAgrees items w
  reading : q.ReadAgrees items r

theorem new_holds (hq : new size = some q) : q.size = size ∧ 2 ≤ size ∧ q.Holds .idle .idle [] := by
  simp only [new, Option.ite_none_right_eq_some, Option.some.injEq] at hq
  obtain ⟨hsize, rfl⟩ := hq
  have hpos : 0 < size := by omega
  refine ⟨rfl, hsize, hpos, hpos, (slotIndex_zero hpos).symm, fun k hk => ?_, trivial, trivial⟩
  have hlt : slotIndex size 0 k < size := slotIndex_lt hpos (Nat.le_of_lt hk)
  simp [slotContent, WriteCall.placed, ReadCall.emptied, hlt]

/-- One slot changed, all others keep what they hold. -/
theorem Holds.slots_set (h : q.Holds w r items) (hi : i < q.size) (hk : k < q.size)
    (content : Option T) :
    (q.records.set (slotIndex q.size q.readIndex i) content)[slotIndex q.size q.readIndex k]? =
      some (if k = i then content else slotContent items w r k) := by
  have hold := h.slots k hk
  by_cases hki : k = i
  · subst hki
    have hlt := (List.getElem?_eq_some_iff.mp hold).1
    simp [hlt]
  · have hne : slotIndex q.size q.readIndex i ≠ slotIndex q.size q.readIndex k := by
      rw [ne_eq, slotIndex_inj hi hk]
      exact fun heq => hki heq.symm
    rw [List.getElem?_set_ne hne, hold, if_neg hki]

theorem Holds.not_emptied (h : q.Holds w r items) (hitems : items = []) : r.emptied = false := by
  have hr := h.reading
  cases r with
  | destroyed record nextRecord => simp [ReadAgrees, hitems] at hr
  | _ => rfl

/-- A queue that is not full has a raw slot at the write index. -/
theorem Holds.construct (h : q.Holds w r items) (hw : w.placed = [])
    (hroom : items.length + 1 < q.size) (record : T) :
    q.construct q.writeIndex record =
        some { q with records := q.records.set q.writeIndex (some record) } ∧
      { q with records := q.records.set q.writeIndex (some record) }.Holds
        (.constructed record (nextIndex q.size q.writeIndex)) r items := by
  have hslot := h.slots items.length h.room
  have hraw : slotContent items w r items.length = none := by simp [slotContent, hw]
  rw [← h.write, hraw] at hslot
  refine ⟨by simp [ProducerConsumerQueue.construct, hslot], h.room, h.read, h.write, fun k hk => ?_,
    ⟨rfl, hroom⟩, ?_⟩
  · have hset := h.slots_set h.room hk (some record)
    rw [← h.write] at hset
    refine hset.trans (congrArg some ?_)
    by_cases hlen : k = items.length
    · have hnot : ¬ (k = 0 ∧ r.emptied = true) := fun ⟨h0, he⟩ => by
        rw [h.not_emptied (List.length_eq_zero_iff.mp (hlen.symm.trans h0))] at he
        exact Bool.noConfusion he
      rw [if_pos hlen, slotContent, if_neg hnot, hlen]
      simp [WriteCall.placed]
    · have hsame : (items ++ [record])[k]? = (items ++ w.placed)[k]? := by
        rw [hw, List.getElem?_append, List.getElem?_append, List.getElem?_nil]
        split_ifs
        · rfl
        · exact List.getElem?_eq_none (by simp; omega)
      rw [if_neg hlen, slotContent, slotContent, ← hsame]
      rfl
  · have hr := h.reading
    cases r <;> exact hr

/-- With the write index stored, the record that was placed is in the queue. -/
theorem Holds.publish {record : T} {nextRecord : Nat}
    (h : q.Holds (.constructed record nextRecord) r items) :
    items.length < q.capacity ∧
      { q with writeIndex := nextRecord }.Holds .idle r (items ++ [record]) := by
  obtain ⟨rfl, hroom⟩ := h.writing
  refine ⟨Nat.lt_sub_of_add_lt hroom, ?_, h.read, ?_, fun k hk => ?_, trivial, ?_⟩
  · simpa using hroom
  · rw [h.write, nextIndex_slotIndex h.read h.room]
    simp
  · simpa [slotContent, WriteCall.placed] using h.slots k hk
  · have hr := h.reading
    cases r with
    | idle => trivial
    | loaded => exact hr
    | nonempty => exact ⟨hr.1, hr.2.1, by simp⟩
    | moved => exact ⟨hr.1, hr.2.1, by simp [hr.2.2]⟩
    | destroyed => exact ⟨hr.1, by simp [hr.2]⟩

/-- A step of `write` is defined. The items change when it returns that it succeeded, and it
returns that it failed only if the queue is full. -/
theorem Holds.writeStep (h : q.Holds w r items) (record : T) :
    ∃ q' w' returned, q.writeStep record w = some (q', w', returned) ∧ q'.size = q.size ∧
      ((returned = none ∧ q'.Holds w' r items) ∨
        (∃ record, w.record? = some record ∧ w' = .idle ∧ returned = some true ∧
          items.length < q.capacity ∧ q'.Holds w' r (items ++ [record])) ∨
        ∃ record, w.record? = some record ∧ w' = .idle ∧ returned = some false ∧
          items.length = q.capacity ∧ q'.Holds w' r items) := by
  cases w with
  | idle =>
    have hq : q.Holds (.loaded record q.writeIndex) r items :=
      ⟨h.room, h.read, h.write, h.slots, rfl, h.reading⟩
    exact ⟨q, _, none, rfl, rfl, Or.inl ⟨rfl, hq⟩⟩
  | loaded record currentWrite =>
    have hw : currentWrite = q.writeIndex := h.writing
    have hnext : nextIndex q.size q.writeIndex = q.readIndex ↔ items.length + 1 = q.size := by
      rw [h.write, nextIndex_slotIndex h.read h.room, slotIndex_eq_self h.read h.room]
      simp
    subst hw
    by_cases hfull : nextIndex q.size q.writeIndex = q.readIndex
    · have hq : q.Holds .idle r items := ⟨h.room, h.read, h.write, h.slots, trivial, h.reading⟩
      exact ⟨q, .idle, some false, by simp [ProducerConsumerQueue.writeStep, hfull], rfl,
        Or.inr (Or.inr ⟨record, rfl, rfl, rfl, Nat.eq_sub_of_add_eq (hnext.mp hfull), hq⟩)⟩
    · have hlen : items.length + 1 < q.size := Nat.lt_of_le_of_ne h.room (mt hnext.mpr hfull)
      have hq : q.Holds (.vacant record q.writeIndex (nextIndex q.size q.writeIndex)) r items :=
        ⟨h.room, h.read, h.write, h.slots, ⟨rfl, rfl, hlen⟩, h.reading⟩
      exact ⟨q, _, none, by simp [ProducerConsumerQueue.writeStep, hfull], rfl, Or.inl ⟨rfl, hq⟩⟩
  | vacant record currentWrite nextRecord =>
    obtain ⟨rfl, rfl, hlen⟩ := h.writing
    obtain ⟨hconstruct, hq⟩ := h.construct rfl hlen record
    exact ⟨{ q with records := q.records.set q.writeIndex (some record) }, _, none,
      by simp only [ProducerConsumerQueue.writeStep, hconstruct]; rfl, rfl, Or.inl ⟨rfl, hq⟩⟩
  | constructed record nextRecord =>
    obtain ⟨hroom, hq⟩ := h.publish
    exact ⟨{ q with writeIndex := nextRecord }, .idle, some true, rfl, rfl,
      Or.inr (Or.inl ⟨record, rfl, rfl, rfl, hroom, hq⟩)⟩

/-- The front of the queue is in the slot at the read index, until it was destructed. -/
theorem Holds.recordAt {record : T} (h : q.Holds w r items) (hr : r.emptied = false)
    (hhead : items.head? = some record) : q.recordAt q.readIndex = some record := by
  have hslot := h.slots 0 (Nat.zero_lt_of_lt h.room)
  obtain ⟨rest, rfl⟩ := List.head?_eq_some_iff.mp hhead
  rw [slotIndex_zero h.read] at hslot
  simp [ProducerConsumerQueue.recordAt, hslot, slotContent, hr]

/-- Destruction of the front. -/
theorem Holds.destruct {record : T} {currentRead nextRecord : Nat}
    (h : q.Holds w (.moved record currentRead nextRecord) items) :
    q.destruct currentRead = some { q with records := q.records.set currentRead none } ∧
      { q with records := q.records.set currentRead none }.Holds w (.destroyed record nextRecord)
        items := by
  obtain ⟨rfl, rfl, hhead⟩ := h.reading
  have hpos : 0 < q.size := Nat.zero_lt_of_lt h.room
  refine ⟨by simp [ProducerConsumerQueue.destruct, h.recordAt rfl hhead], h.room, h.read, h.write,
    fun k hk => ?_, ?_, rfl, hhead⟩
  · have hset := h.slots_set hpos hk none
    rw [slotIndex_zero h.read] at hset
    refine hset.trans (congrArg some ?_)
    by_cases hk0 : k = 0
    · simp [slotContent, hk0, ReadCall.emptied]
    · simp [slotContent, hk0]
  · have hw := h.writing
    cases w <;> exact hw

/-- With the read index stored, the front has left the queue. -/
theorem Holds.advance {record : T} {nextRecord : Nat}
    (h : q.Holds w (.destroyed record nextRecord) items) :
    ∃ rest, items = record :: rest ∧ { q with readIndex := nextRecord }.Holds w .idle rest := by
  obtain ⟨rfl, hhead⟩ := h.reading
  obtain ⟨rest, rfl⟩ := List.head?_eq_some_iff.mp hhead
  have hroom := h.room
  rw [List.length_cons] at hroom
  have hpos : 0 < q.size := Nat.zero_lt_of_lt hroom
  refine ⟨rest, rfl, Nat.lt_of_succ_lt hroom, nextIndex_lt h.read, ?_, fun k hk => ?_, ?_, trivial⟩
  · rw [h.write, slotIndex_nextIndex (Nat.lt_of_succ_lt hroom)]
    rfl
  · replace hk : k < q.size := hk
    rw [slotIndex_nextIndex hk]
    by_cases hlast : k + 1 = q.size
    · -- the slot that was the front is now the last one
      have hwrap : slotIndex q.size q.readIndex (k + 1) = slotIndex q.size q.readIndex 0 := by
        rw [slotIndex_zero h.read, slotIndex_eq_self h.read (by omega)]
        exact Or.inr hlast
      have hfit : (rest ++ w.placed).length ≤ k := by
        have hw := h.writing
        cases w with
        | constructed =>
          have hlen := hw.2
          simp only [List.length_cons] at hlen
          simp only [WriteCall.placed, List.length_append, List.length_singleton]
          omega
        | _ =>
          simp only [WriteCall.placed, List.append_nil]
          omega
      rw [hwrap, h.slots 0 hpos]
      simp [slotContent, ReadCall.emptied, List.getElem?_eq_none hfit]
    · rw [h.slots (k + 1) (by omega)]
      simp [slotContent, ReadCall.emptied]
  · have hw := h.writing
    cases w with
    | idle => trivial
    | loaded => exact hw
    | vacant => exact ⟨hw.1, hw.2.1, Nat.lt_of_succ_lt hw.2.2⟩
    | constructed => exact ⟨hw.1, Nat.lt_of_succ_lt hw.2⟩

/-- A step of `read` is defined. The items change when it returns one, and it returns that there is
none only if the queue is empty. -/
theorem Holds.readStep (h : q.Holds w r items) :
    ∃ q' r' returned, q.readStep r = some (q', r', returned) ∧ q'.size = q.size ∧
      ((returned = none ∧ q'.Holds w r' items) ∨
        (∃ record rest, returned = some (some record) ∧ items = record :: rest ∧
          q'.Holds w r' rest) ∨
        (returned = some none ∧ items = [] ∧ q'.Holds w r' items)) := by
  cases r with
  | idle =>
    have hq : q.Holds w (.loaded q.readIndex) items :=
      ⟨h.room, h.read, h.write, h.slots, h.writing, rfl⟩
    exact ⟨q, _, none, rfl, rfl, Or.inl ⟨rfl, hq⟩⟩
  | loaded currentRead =>
    have hr : currentRead = q.readIndex := h.reading
    have hempty : q.readIndex = q.writeIndex ↔ items = [] := by
      rw [eq_comm, h.write, slotIndex_eq_self h.read (Nat.le_of_lt h.room)]
      have hne := Nat.ne_of_lt h.room
      simp [hne]
    subst hr
    by_cases hnone : q.readIndex = q.writeIndex
    · have hq : q.Holds w .idle items := ⟨h.room, h.read, h.write, h.slots, h.writing, trivial⟩
      exact ⟨q, .idle, some none, by simp [ProducerConsumerQueue.readStep, hnone], rfl,
        Or.inr (Or.inr ⟨rfl, hempty.mp hnone, hq⟩)⟩
    · have hq : q.Holds w (.nonempty q.readIndex (nextIndex q.size q.readIndex)) items :=
        ⟨h.room, h.read, h.write, h.slots, h.writing, rfl, rfl, mt hempty.mpr hnone⟩
      exact ⟨q, _, none, by simp [ProducerConsumerQueue.readStep, hnone], rfl, Or.inl ⟨rfl, hq⟩⟩
  | nonempty currentRead nextRecord =>
    obtain ⟨rfl, rfl, hne⟩ := h.reading
    obtain ⟨record, rest, rfl⟩ := List.exists_cons_of_ne_nil hne
    have hq : q.Holds w (.moved record q.readIndex (nextIndex q.size q.readIndex)) (record :: rest) :=
      ⟨h.room, h.read, h.write, h.slots, h.writing, rfl, rfl, rfl⟩
    exact ⟨q, _, none, by simp [ProducerConsumerQueue.readStep, h.recordAt rfl rfl], rfl,
      Or.inl ⟨rfl, hq⟩⟩
  | moved record currentRead nextRecord =>
    obtain ⟨hdestruct, hq⟩ := h.destruct
    exact ⟨{ q with records := q.records.set currentRead none }, _, none,
      by simp only [ProducerConsumerQueue.readStep, hdestruct]; rfl, rfl, Or.inl ⟨rfl, hq⟩⟩
  | destroyed record nextRecord =>
    obtain ⟨rest, hrest, hq⟩ := h.advance
    exact ⟨{ q with readIndex := nextRecord }, .idle, some (some record), rfl, rfl,
      Or.inr (Or.inl ⟨record, rest, rfl, hrest, hq⟩)⟩

end Contents

section Destruction

/-- The loop destructs what the queue holds from the index on. -/
theorem destroyLoop_spec (fuel index : Nat)
    (h : { q with readIndex := index }.Holds .idle .idle items)
    (hfuel : items.length < fuel) :
    ∃ q', q.destroyLoop fuel index = some q' ∧ ∀ i < q.size, q'.records[i]? = some none := by
  induction items generalizing q fuel index with
  | nil =>
    obtain ⟨fuel, rfl⟩ := Nat.exists_eq_add_of_lt hfuel
    have hindex : index < q.size := h.read
    have hw : q.writeIndex = index := h.write.trans (slotIndex_zero hindex)
    refine ⟨q, by simp [destroyLoop, hw], fun i hi => ?_⟩
    obtain ⟨k, hk, rfl⟩ := exists_slotIndex hindex hi
    exact (h.slots k hk).trans (by simp [slotContent, ReadCall.emptied, WriteCall.placed])
  | cons record items ih =>
    obtain ⟨fuel, rfl⟩ := Nat.exists_eq_add_of_lt (Nat.zero_lt_of_lt hfuel)
    rw [Nat.zero_add] at hfuel ⊢
    have hmoved : { q with readIndex := index }.Holds .idle
        (.moved record index (nextIndex q.size index)) (record :: items) :=
      ⟨h.room, h.read, h.write, h.slots, trivial, rfl, rfl, rfl⟩
    obtain ⟨hdestruct, hdestroyed⟩ := hmoved.destruct
    obtain ⟨rest, hrest, hnext⟩ := hdestroyed.advance
    obtain ⟨-, rfl⟩ := List.cons.inj hrest
    have hq : q.destruct index = some { q with records := q.records.set index none } := by
      have hrecord := hmoved.recordAt rfl rfl
      simp only [ProducerConsumerQueue.recordAt] at hrecord
      simp [ProducerConsumerQueue.destruct, ProducerConsumerQueue.recordAt, hrecord]
    have hne : index ≠ q.writeIndex := by
      have hw := h.write
      have hroom := h.room
      intro heq
      rw [← heq, eq_comm, slotIndex_eq_self h.read (Nat.le_of_lt hroom)] at hw
      rcases hw with hw | hw
      · simp at hw
      · exact Nat.ne_of_lt hroom hw
    obtain ⟨q', hloop, hraw⟩ := ih fuel (nextIndex q.size index) (q := { q with
      records := q.records.set index none }) hnext (Nat.lt_of_succ_lt_succ hfuel)
    exact ⟨q', by simp [destroyLoop, hne, hq, hloop], hraw⟩

/-- The destructor leaves every slot raw. -/
theorem Holds.destroy (h : q.Holds .idle .idle items) (triviallyDestructible : Bool) :
    ∃ q', q.destroy triviallyDestructible = some q' ∧
      (triviallyDestructible = false → ∀ i < q.size, q'.records[i]? = some none) := by
  cases triviallyDestructible with
  | true => exact ⟨q, rfl, fun h => absurd h (by decide)⟩
  | false =>
    obtain ⟨q', hq', hraw⟩ := destroyLoop_spec (q.size + 1) q.readIndex h (Nat.lt_succ_of_lt h.room)
    exact ⟨q', hq', fun _ => hraw⟩

end Destruction

end ProducerConsumerQueue

section Threads

variable {T : Type} {q : ProducerConsumerQueue T} {w : WriteCall T} {r : ReadCall T}
  {items : List T} {size : Nat} {s : QueueThreads T} {actions : List (QueueAction T)}
  {events : List (QueueEvent T)}

/-- The slot that the next step of the producer writes to. -/
def WriteCall.slot? : WriteCall T → Option Nat
  | vacant _ currentWrite _ => some currentWrite
  | _ => none

/-- The slot that the next step of the consumer moves the record from, or destructs. -/
def ReadCall.slot? : ReadCall T → Option Nat
  | nonempty currentRead _ => some currentRead
  | moved _ currentRead _ => some currentRead
  | _ => none

/-- The two threads do not access the same slot. -/
theorem ProducerConsumerQueue.Holds.slot_ne {i j : Nat} (h : q.Holds w r items)
    (hi : w.slot? = some i) (hj : r.slot? = some j) : i ≠ j := by
  have hw : i = q.writeIndex := by
    have hwriting := h.writing
    cases w with
    | vacant =>
      cases hi
      exact hwriting.1
    | _ => simp [WriteCall.slot?] at hi
  have hr : j = q.readIndex ∧ items ≠ [] := by
    have hreading := h.reading
    cases r with
    | nonempty =>
      cases hj
      exact ⟨hreading.1, hreading.2.2⟩
    | moved =>
      cases hj
      exact ⟨hreading.1, fun he => by simp [ProducerConsumerQueue.ReadAgrees, he] at hreading⟩
    | _ => simp [ReadCall.slot?] at hj
  have hroom := h.room
  have hpos := List.length_pos_iff.mpr hr.2
  rw [hw, hr.1, h.write, ne_eq, ProducerConsumerQueue.slotIndex_eq_self h.read (Nat.le_of_lt hroom)]
  omega

variable [DecidableEq T]

/-- What the threads have of the queue is what the bounded queue has. -/
def QueueThreads.Represents (size : Nat) (s : QueueThreads T) (a : BoundedQueue T (size - 1)) :
    Prop :=
  s.queue.size = size ∧ s.queue.Holds s.write s.read a.items

theorem QueueThreads.simulates :
    Labelled.Simulates (step (T := T)) BoundedQueue.accept (Represents size) := by
  intro s a action s' event ⟨hsize, h⟩ hs
  have hcap : s.queue.capacity = size - 1 := by rw [ProducerConsumerQueue.capacity, hsize]
  cases action with
  | producer record =>
    obtain ⟨q', w', returned, hstep, hsize', hcase⟩ := h.writeStep record
    simp only [step, hstep, Option.bind_eq_bind, Option.bind_some, Option.pure_def,
      Option.some.injEq, Prod.mk.injEq] at hs
    obtain ⟨rfl, rfl⟩ := hs
    rcases hcase with ⟨rfl, hq⟩ | ⟨record, hrec, -, rfl, hroom, hq⟩ |
      ⟨record, hrec, -, rfl, hfull, hq⟩
    · exact ⟨a, by simp, hsize'.trans hsize, hq⟩
    · rw [hcap] at hroom
      exact ⟨⟨a.items ++ [record], by simpa using Nat.succ_le_of_lt hroom⟩,
        by simp [hrec, WriteCall.event, BoundedQueue.accept, hroom], hsize'.trans hsize, hq⟩
    · rw [hcap] at hfull
      exact ⟨a, by simp [hrec, WriteCall.event, BoundedQueue.accept, hfull], hsize'.trans hsize, hq⟩
  | consumer =>
    obtain ⟨q', r', returned, hstep, hsize', hcase⟩ := h.readStep
    simp only [step, hstep, Option.bind_eq_bind, Option.bind_some, Option.pure_def,
      Option.some.injEq, Prod.mk.injEq] at hs
    obtain ⟨rfl, rfl⟩ := hs
    rcases hcase with ⟨rfl, hq⟩ | ⟨record, rest, rfl, hitems, hq⟩ | ⟨rfl, hitems, hq⟩
    · exact ⟨a, by simp, hsize'.trans hsize, hq⟩
    · refine ⟨⟨a.items.tail, by rw [List.length_tail]; exact Nat.le_trans (Nat.sub_le _ _) a.bounded⟩,
        by simp [ReadCall.event, BoundedQueue.accept, hitems], hsize'.trans hsize, ?_⟩
      have htail : a.items.tail = rest := by rw [hitems, List.tail_cons]
      exact htail ▸ hq
    · exact ⟨a, by simp [ReadCall.event, BoundedQueue.accept, hitems], hsize'.trans hsize, hq⟩

omit [DecidableEq T] in
theorem QueueThreads.Represents.step_defined {a : BoundedQueue T (size - 1)}
    (h : Represents size s a) (action : QueueAction T) : ∃ out, s.step action = some out := by
  cases action with
  | producer record =>
    obtain ⟨q', w', returned, hstep, -⟩ := h.2.writeStep record
    exact ⟨_, by simp only [step, hstep]; rfl⟩
  | consumer =>
    obtain ⟨q', r', returned, hstep, -⟩ := h.2.readStep
    exact ⟨_, by simp only [step, hstep]; rfl⟩

/-- Whatever the order of the steps of the two threads, none gets stuck, and what the calls return
is what the calls of a first-in first-out queue with one slot less return. -/
theorem QueueThreads.refines_boundedQueue (hq : ProducerConsumerQueue.new size = some q)
    (actions : List (QueueAction T)) :
    ∃ s events, Labelled.run step (.new q) actions = some (s, events) ∧
      ∃ last : BoundedQueue T (size - 1),
        events.foldlM BoundedQueue.accept .empty = some last ∧
        s.queue.Holds s.write s.read last.items ∧
        events.flatMap QueueEvent.taken ++ last.items = events.flatMap QueueEvent.written := by
  obtain ⟨hsize, -, hnew⟩ := ProducerConsumerQueue.new_holds hq
  have hstart : Represents size (.new q) (BoundedQueue.empty : BoundedQueue T (size - 1)) :=
    ⟨hsize, hnew⟩
  obtain ⟨⟨s, events⟩, hrun⟩ :=
    simulates.run_defined (fun _ _ action h => Represents.step_defined h action) hstart actions
  obtain ⟨last, haccept, -, hs⟩ := simulates.run hstart hrun
  exact ⟨s, events, hrun, last, haccept, hs, by simpa using BoundedQueue.run_order haccept⟩

/-- The second write finds the queue full until the record before it has left it. -/
theorem QueueThreads.refines_boundedQueue_two :
    ∃ s events, Labelled.run step (.new ⟨2, [none, none], 0, 0⟩)
        [.producer 5, .consumer, .producer 5, .producer 5, .producer 5, .producer 6, .consumer,
          .producer 6, .consumer, .consumer, .consumer, .producer 6, .producer 6] =
          some (s, events) ∧
      ∃ last : BoundedQueue Nat (2 - 1),
        events.foldlM BoundedQueue.accept .empty = some last ∧
        s.queue.Holds s.write s.read last.items ∧
        events.flatMap QueueEvent.taken ++ last.items = events.flatMap QueueEvent.written :=
  refines_boundedQueue rfl _

/-- In no state are both threads about to access the same slot. When both are done the destructor
destructs each record that is left, so that all slots are raw, unless that is trivial. -/
theorem QueueThreads.slots_safe (hq : ProducerConsumerQueue.new size = some q)
    (hrun : Labelled.run step (.new q) actions = some (s, events)) :
    (∀ i j, s.write.slot? = some i → s.read.slot? = some j → i ≠ j) ∧
      (s.write = .idle → s.read = .idle →
        ∀ triviallyDestructible, ∃ q', s.queue.destroy triviallyDestructible = some q' ∧
          (triviallyDestructible = false → ∀ i < size, q'.records[i]? = some none)) := by
  obtain ⟨hsize, -, hnew⟩ := ProducerConsumerQueue.new_holds hq
  have hstart : Represents size (.new q) (BoundedQueue.empty : BoundedQueue T (size - 1)) :=
    ⟨hsize, hnew⟩
  obtain ⟨last, -, hsize', hs⟩ := simulates.run hstart hrun
  refine ⟨fun i j hi hj => hs.slot_ne hi hj, fun hw hr => ?_⟩
  rw [hw, hr] at hs
  rw [← hsize']
  exact hs.destroy

/-- One record was taken and one is left. -/
theorem QueueThreads.slots_safe_three :
    ∃ s : QueueThreads Nat, ∃ events, Labelled.run step (.new ⟨3, [none, none, none], 0, 0⟩)
        [.producer 5, .producer 5, .producer 5, .producer 5, .consumer, .producer 6, .consumer,
          .producer 6, .consumer, .producer 6, .consumer, .producer 6, .consumer] =
          some (s, events) ∧
      (∀ i j, s.write.slot? = some i → s.read.slot? = some j → i ≠ j) ∧
      (s.write = .idle → s.read = .idle →
        ∀ triviallyDestructible, ∃ q', s.queue.destroy triviallyDestructible = some q' ∧
          (triviallyDestructible = false → ∀ i < 3, q'.records[i]? = some none)) := by
  have hrun : ∃ out, Labelled.run step (.new (T := Nat) ⟨3, [none, none, none], 0, 0⟩)
      [.producer 5, .producer 5, .producer 5, .producer 5, .consumer, .producer 6, .consumer,
        .producer 6, .consumer, .producer 6, .consumer, .producer 6, .consumer] = some out := ⟨_, rfl⟩
  obtain ⟨⟨s, events⟩, hrun⟩ := hrun
  exact ⟨s, events, hrun, slots_safe rfl hrun⟩

end Threads

end Hypertrie
