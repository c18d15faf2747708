import Hypertrie.BulkUpdaterRun
import Hypertrie.Library.Simulation

/-! The calls of the producer return if the worker goes on: none of them waits
for something that the worker does not do within a bounded number of steps. -/

namespace Hypertrie

open UnorderedMap

variable {M : Type → Type → Type} [UnorderedMap M] {K V : Type}
variable {t : HypertrieTrait K V} {cfg : BulkUpdaterSettings} {u u' : BulkUpdater M K V}
  {action : ProducerAction K} {nodec : RawIdentifier} {nodeStorage : NodeStorage M K V}
  {steps : List (Option (ProducerAction K))} {n : Nat}

namespace BulkUpdater

theorem two_le_bulkSize (cfg : BulkUpdaterSettings) : 2 ≤ cfg.bulkSize := by
  unfold BulkUpdaterSettings.bulkSize
  split <;> omega

/-- What holds between the two threads at any time. -/
structure Coordinated (cfg : BulkUpdaterSettings) (u : BulkUpdater M K V) : Prop where
  room : u.entryQueue.length ≤ cfg.queueCapacity
  flush : u.pleaseFlush = true → u.producer = .flushing
  requested : u.stopRequested = true → u.producer = .joining ∨ u.producer = .destroyed
  joining : u.producer = .joining → u.stopRequested = true
  done : u.done = true → u.stopRequested = true ∧ u.worker ≠ .bulkLoop ∧ u.worker ≠ .reading ∧
    u.worker ≠ .checkingStop
  exited : u.worker = .exited → u.done = true
  applied : BulkDone u

theorem coordinated_new : Coordinated cfg (BulkUpdater.new nodec nodeStorage) := by
  constructor <;> simp [BulkUpdater.new, BulkDone]

omit [UnorderedMap M] in
theorem length_entryQueue_of_producerStep (h : u.entryQueue.length ≤ cfg.queueCapacity)
    (hstep : u.producerStep t cfg action = some u') : u'.entryQueue.length ≤ cfg.queueCapacity := by
  rw [BulkUpdater.producerStep.eq_def] at hstep
  split at hstep
  case h_2 =>
    split at hstep
    next hroom =>
      obtain rfl := Option.some.inj hstep
      simpa using Nat.succ_le_of_lt hroom
    next =>
      obtain rfl := Option.some.inj hstep
      exact h
  case h_4 =>
    obtain rfl := Option.some.inj hstep
    split <;> exact h
  case h_6 =>
    obtain rfl := Option.some.inj hstep
    split <;> exact h
  case h_7 => cases hstep
  all_goals
    obtain rfl := Option.some.inj hstep
    exact h

omit [UnorderedMap M] in
theorem Coordinated.producerStep (h : Coordinated cfg u)
    (hstep : u.producerStep t cfg action = some u') : Coordinated cfg u' := by
  have hroom := length_entryQueue_of_producerStep h.room hstep
  obtain ⟨-, hflush, hrequested, hjoining, hdone, hexited, happlied⟩ := h
  cases producerMove_of_step hstep with
  | queueFull => exact ⟨hroom, hflush, hrequested, hjoining, hdone, hexited, happlied⟩
  | _ => constructor <;> simp_all [BulkDone]

variable [DecidableEq K] [DecidableEq V] [Inhabited K]

theorem Coordinated.workerStep (h : Coordinated cfg u) (hstep : u.workerStep t cfg = some u') :
    Coordinated cfg u' := by
  obtain ⟨hroom, hflush, hrequested, hjoining, hdone, hexited, happlied⟩ := h
  cases workerMove_of_step hstep with
  | stay => exact ⟨hroom, hflush, hrequested, hjoining, hdone, hexited, happlied⟩
  | take e queue N D hw hq =>
    constructor <;> simp_all [BulkDone]
    omega
  | _ => constructor <;> simp_all [BulkDone]

theorem coordinated_run {u₀ : BulkUpdater M K V} (h : Coordinated cfg u₀)
    (hrun : runUpdater t cfg u₀ steps = some u) : Coordinated cfg u := by
  induction steps generalizing u₀ with
  | nil =>
    obtain rfl := Option.some.inj hrun
    exact h
  | cons step steps ih =>
    simp only [runUpdater, List.foldlM_cons, Option.bind_eq_bind, Option.bind_eq_some_iff] at hrun
    obtain ⟨u₁, hstep, hrest⟩ := hrun
    cases step with
    | none => exact ih (h.workerStep hstep) hrest
    | some action => exact ih (h.producerStep hstep) hrest

/-- The worker goes on reading unless the bulk is full or a flush was asked for. -/
theorem workerStep_bulkLoop (hw : u.worker = .bulkLoop) (hstep : u.workerStep t cfg = some u') :
    u' = { u with worker := if u.newEntries.length < cfg.bulkSize ∧ u.pleaseFlush = false then
      .reading else .applying } := by
  simp only [BulkUpdater.workerStep, hw, Option.some.injEq] at hstep
  exact hstep.symm

omit [DecidableEq K] [DecidableEq V] [Inhabited K] in
theorem producer_of_workerMove (h : WorkerMove u u') : u'.producer = u.producer := by
  cases h <;> rfl

section Flush

/-- How many steps the worker is away from resetting the flush flag. -/
def flushRank (u : BulkUpdater M K V) : Nat :=
  match u.worker with
  | .resetFlush | .exited => 0
  | .applying => 1
  | .bulkLoop => 2
  | .bulkStart | .checkingStop => 3
  | .reading => 4

theorem flushRank_lt (h : Coordinated cfg u) (hp : u.producer = .flushing)
    (hstep : u.workerStep t cfg = some u') : u'.pleaseFlush = false ∨ flushRank u' < flushRank u := by
  have hstop : u.stopRequested = false := by
    by_contra hs
    have hcall := h.requested (by simpa using hs)
    simp [hp] at hcall
  have hdone : u.done = false := by
    by_contra hd
    have hs := (h.done (by simpa using hd)).1
    simp [hstop] at hs
  cases workerMove_of_step hstep with
  | leave hw hd => simp [hdone] at hd
  | stay hw =>
    have hd := h.exited hw
    simp [hdone] at hd
  | seeStop hw hs => simp [hstop] at hs
  | goReading hw =>
    have hguard := congrArg BulkUpdater.worker (workerStep_bulkLoop hw hstep)
    by_cases hg : u.newEntries.length < cfg.bulkSize ∧ u.pleaseFlush = false
    · exact Or.inl hg.2
    · simp [hg] at hguard
  | reset hw => exact Or.inl rfl
  | startBulk hw hd => simp [flushRank, hw]
  | goApplying hw => simp [flushRank, hw]
  | take e queue N D hw hq => simp [flushRank, hw]
  | findEmpty hw hq => simp [flushRank, hw]
  | goOn hw hs => simp [flushRank, hw]
  | apply nodec ns hw => simp [flushRank, hw]

end Flush

section Add

/-- How many steps the worker is away from taking an entry from a queue that is full. -/
def addRank (cfg : BulkUpdaterSettings) (u : BulkUpdater M K V) : Nat :=
  match u.worker with
  | .reading | .exited => 0
  | .bulkLoop => if u.newEntries.length < cfg.bulkSize then 1 else 5
  | .bulkStart => 2
  | .resetFlush => 3
  | .applying => 4
  | .checkingStop => 6

theorem addRank_lt {e : SingleEntry K V} (h : Coordinated cfg u) (hp : u.producer = .adding e)
    (hstep : u.workerStep t cfg = some u') :
    u'.entryQueue.length < cfg.queueCapacity ∨ addRank cfg u' < addRank cfg u := by
  have hbulk := two_le_bulkSize cfg
  have hflush : u.pleaseFlush = false := by
    by_contra hf
    have hcall := h.flush (by simpa using hf)
    simp [hp] at hcall
  have hstop : u.stopRequested = false := by
    by_contra hs
    have hcall := h.requested (by simpa using hs)
    simp [hp] at hcall
  have hdone : u.done = false := by
    by_contra hd
    have hs := (h.done (by simpa using hd)).1
    simp [hstop] at hs
  cases workerMove_of_step hstep with
  | leave hw hd => simp [hdone] at hd
  | stay hw =>
    have hd := h.exited hw
    simp [hdone] at hd
  | seeStop hw hs => simp [hstop] at hs
  | goReading hw =>
    refine Or.inr ?_
    simp only [addRank, hw]
    split <;> omega
  | goApplying hw =>
    have hguard := congrArg BulkUpdater.worker (workerStep_bulkLoop hw hstep)
    by_cases hfull : u.newEntries.length < cfg.bulkSize
    · simp [hfull, hflush] at hguard
    · simp [addRank, hw, hfull]
  | take e queue N D hw hq =>
    have hroom := h.room
    simp only [hq, List.length_cons] at hroom
    exact Or.inl (Nat.lt_of_succ_le hroom)
  | findEmpty hw hq =>
    left
    simp only [hq, List.length_nil, BulkUpdaterSettings.queueCapacity]
    omega
  | startBulk hw hd =>
    have hnone := h.applied (Or.inr (Or.inl hw))
    have hpos : 0 < cfg.bulkSize := by omega
    simp [addRank, hw, hnone, hpos]
  | goOn hw hs =>
    refine Or.inr ?_
    simp only [addRank, hw]
    split <;> omega
  | apply nodec ns hw => simp [addRank, hw]
  | reset hw => simp [addRank, hw]

end Add

section Join

/-- How many steps the worker is away from its end once it was asked to stop. -/
def joinRank (cfg : BulkUpdaterSettings) (u : BulkUpdater M K V) : Nat :=
  match u.worker with
  | .exited => 0
  | .bulkStart => if u.done then 0 else 7 * u.entryQueue.length + 6
  | .resetFlush => if u.done then 1 else 7 * u.entryQueue.length + 7
  | .applying => if u.done then 2 else 7 * u.entryQueue.length + 8
  | .checkingStop => 3
  | .reading => 7 * u.entryQueue.length + 4
  | .bulkLoop =>
    7 * u.entryQueue.length + if u.newEntries.length < cfg.bulkSize then 5 else 9

omit [UnorderedMap M] [DecidableEq K] [DecidableEq V] [Inhabited K] in
theorem joinRank_le (cfg : BulkUpdaterSettings) (u : BulkUpdater M K V) :
    joinRank cfg u ≤ 7 * u.entryQueue.length + 9 := by
  unfold joinRank
  split <;> (try split) <;> omega

theorem joinRank_lt (h : Coordinated cfg u) (hp : u.producer = .joining)
    (hstep : u.workerStep t cfg = some u') :
    u'.worker = .exited ∨ joinRank cfg u' < joinRank cfg u := by
  have hbulk := two_le_bulkSize cfg
  have hstop := h.joining hp
  have hflush : u.pleaseFlush = false := by
    by_contra hf
    have hcall := h.flush (by simpa using hf)
    simp [hp] at hcall
  cases workerMove_of_step hstep with
  | leave hw hd => exact Or.inl rfl
  | stay hw => exact Or.inl hw
  | goOn hw hs => simp [hstop] at hs
  | seeStop hw hs => simp [joinRank, hw]
  | goReading hw =>
    refine Or.inr ?_
    simp only [joinRank, hw]
    split <;> omega
  | goApplying hw =>
    have hguard := congrArg BulkUpdater.worker (workerStep_bulkLoop hw hstep)
    have hdone : u.done = false := by
      by_contra hd
      exact (h.done (by simpa using hd)).2.1 hw
    by_cases hfull : u.newEntries.length < cfg.bulkSize
    · simp [hfull, hflush] at hguard
    · simp [joinRank, hw, hfull, hdone]
  | take e queue N D hw hq =>
    refine Or.inr ?_
    simp only [joinRank, hw, hq, List.length_cons]
    split <;> omega
  | findEmpty hw hq => simp [joinRank, hw, hq]
  | startBulk hw hd =>
    have hnone := h.applied (Or.inr (Or.inl hw))
    have hpos : 0 < cfg.bulkSize := by omega
    simp [joinRank, hw, hd, hnone, hpos]
  | apply nodec ns hw =>
    refine Or.inr ?_
    simp only [joinRank, hw]
    split <;> omega
  | reset hw =>
    refine Or.inr ?_
    simp only [joinRank, hw]
    split <;> omega

end Join

section Calls

/-- The worker makes this number of steps while the producer waits. -/
def runWorker (t : HypertrieTrait K V) (cfg : BulkUpdaterSettings) (n : Nat) (u : BulkUpdater M K V) :
    Option (BulkUpdater M K V) :=
  Labelled.repeated (workerStep t cfg) n u

/-- The producer is in this call. -/
def Waiting (cfg : BulkUpdaterSettings) (call : ProducerState K V) (u : BulkUpdater M K V) : Prop :=
  Coordinated cfg u ∧ u.producer = call

theorem Waiting.workerStep {call : ProducerState K V} (h : Waiting cfg call u)
    (hstep : u.workerStep t cfg = some u') : Waiting cfg call u' :=
  ⟨h.1.workerStep hstep, (producer_of_workerMove (workerMove_of_step hstep)).trans h.2⟩

theorem Waiting.runWorker {call : ProducerState K V} (h : Waiting cfg call u)
    (hrun : runWorker t cfg n u = some u') : Waiting cfg call u' :=
  Labelled.inv_of_repeated (fun _ _ hw hstep => Waiting.workerStep hw hstep) h hrun

theorem Waiting.flushed (h : Waiting cfg .flushing u) (hn : 5 ≤ n)
    (hrun : BulkUpdater.runWorker t cfg n u = some u') : u'.pleaseFlush = false := by
  have hrank : flushRank u < n := by
    refine Nat.lt_of_lt_of_le ?_ hn
    unfold flushRank
    split <;> omega
  refine Labelled.goal_of_repeated (fun u => u.pleaseFlush = false) flushRank
    (fun _ _ hw hstep => Waiting.workerStep hw hstep) ?_
    (fun _ _ hw hstep => flushRank_lt hw.1 hw.2 hstep) h (Or.inr hrank) hrun
  intro s s' hflush hstep
  cases workerMove_of_step hstep <;> first | exact hflush | rfl

theorem Waiting.roomy {e : SingleEntry K V} (h : Waiting cfg (.adding e) u) (hn : 7 ≤ n)
    (hrun : BulkUpdater.runWorker t cfg n u = some u') :
    u'.entryQueue.length < cfg.queueCapacity := by
  have hrank : addRank cfg u < n := by
    refine Nat.lt_of_lt_of_le ?_ hn
    unfold addRank
    split <;> (try split) <;> omega
  refine Labelled.goal_of_repeated (fun u => u.entryQueue.length < cfg.queueCapacity) (addRank cfg)
    (fun _ _ hw hstep => Waiting.workerStep hw hstep) ?_
    (fun _ _ hw hstep => addRank_lt hw.1 hw.2 hstep) h (Or.inr hrank) hrun
  intro s s' hroom hstep
  cases workerMove_of_step hstep with
  | take e queue N D hw hq =>
    rw [hq, List.length_cons] at hroom
    exact Nat.lt_of_succ_lt hroom
  | _ => exact hroom

theorem Waiting.exited (h : Waiting cfg .joining u) (hn : 7 * u.entryQueue.length + 10 ≤ n)
    (hrun : BulkUpdater.runWorker t cfg n u = some u') : u'.worker = .exited := by
  have hrank : joinRank cfg u < n := Nat.lt_of_le_of_lt (joinRank_le cfg u) hn
  refine Labelled.goal_of_repeated (fun u => u.worker = .exited) (joinRank cfg)
    (fun _ _ hw hstep => Waiting.workerStep hw hstep) ?_
    (fun _ _ hw hstep => joinRank_lt hw.1 hw.2 hstep) h (Or.inr hrank) hrun
  intro s s' hexited hstep
  simp only [BulkUpdater.workerStep, hexited, Option.some.injEq] at hstep
  exact hstep ▸ hexited

/-- In whatever state a call of the producer finds the updater, it returns at its next check after
the worker has made enough steps: a flush after five, an `add` after seven, and the destructor after
seven for each entry in the queue and ten more. -/
theorem calls_return (hrun : runUpdater t cfg (.new nodec nodeStorage) steps = some u)
    (hworker : runWorker t cfg n u = some u') :
    (u.producer = .flushing → 5 ≤ n →
      ∃ u'', u'.producerStep t cfg .checkFlush = some u'' ∧ u''.producer = .idle) ∧
    (∀ e, u.producer = .adding e → 7 ≤ n → ∃ u'', u'.producerStep t cfg .tryWrite = some u'' ∧
      u''.producer = .idle ∧ u''.entryQueue = u'.entryQueue ++ [e]) ∧
    (u.producer = .joining → 7 * u.entryQueue.length + 10 ≤ n →
      ∃ u'', u'.producerStep t cfg .join = some u'' ∧ u''.producer = .destroyed) := by
  have hu := coordinated_run coordinated_new hrun
  refine ⟨fun hp hn => ?_, fun e hp hn => ?_, fun hp hn => ?_⟩
  · have hw : Waiting cfg .flushing u := ⟨hu, hp⟩
    have hp' := (hw.runWorker hworker).2
    have hflushed := hw.flushed hn hworker
    exact ⟨{ u' with producer := .idle }, by simp [BulkUpdater.producerStep, hp', hflushed], rfl⟩
  · have hw : Waiting cfg (.adding e) u := ⟨hu, hp⟩
    have hp' := (hw.runWorker hworker).2
    have hroom := hw.roomy hn hworker
    exact ⟨_, by simp [BulkUpdater.producerStep, hp', hroom]; rfl, rfl, rfl⟩
  · have hw : Waiting cfg .joining u := ⟨hu, hp⟩
    have hp' := (hw.runWorker hworker).2
    have hexited := hw.exited hn hworker
    exact ⟨{ u' with producer := .destroyed }, by simp [BulkUpdater.producerStep, hp', hexited], rfl⟩

/-- A flush is called while an entry is in the queue. -/
theorem calls_return_flush : ∃ u u' u'' : BulkUpdater AssocMap (BitVec 64) Bool,
    runUpdater defaultBoolTrait ⟨.insert, 1, 2⟩ (.new seed NodeStorage.empty)
      [some (.callAdd [5]), none, none, some .tryWrite, some .callFlush] = some u ∧
    runWorker defaultBoolTrait ⟨.insert, 1, 2⟩ 5 u = some u' ∧
      u'.producerStep defaultBoolTrait ⟨.insert, 1, 2⟩ .checkFlush = some u'' ∧
      u''.producer = .idle := by
  have hrun : ((runUpdater (M := AssocMap) defaultBoolTrait ⟨.insert, 1, 2⟩
      (.new seed NodeStorage.empty) [some (.callAdd [5]), none, none, some .tryWrite,
        some .callFlush]).bind fun u => (runWorker defaultBoolTrait ⟨.insert, 1, 2⟩ 5 u).map
          fun _ => u.producer) = some .flushing := by decide +kernel
  obtain ⟨u, hu, hworker⟩ := Option.bind_eq_some_iff.mp hrun
  obtain ⟨u', hu', hp⟩ := Option.map_eq_some_iff.mp hworker
  obtain ⟨u'', hcheck, hidle⟩ := (calls_return hu hu').1 hp (Nat.le_refl 5)
  exact ⟨u, u', u'', hu, hu', hcheck, hidle⟩

end Calls

end BulkUpdater

end Hypertrie
