import Mathlib.Data.List.Basic

/-! Runs of a system whose steps may show an event, and their simulation by a
specification that accepts events or rejects them. A step that shows nothing
leaves the specification where it is. Progress towards a goal is measured by a
rank. -/

namespace Labelled

variable {State Action Event Spec : Type} {step : State → Action → Option (State × Option Event)}
  {accept : Spec → Event → Option Spec} {R : State → Spec → Prop} {s s' : State} {a a' : Spec}
  {actions : List Action} {events : List Event}

/-- The state after the actions and the events they showed. -/
def run (step : State → Action → Option (State × Option Event)) :
    State → List Action → Option (State × List Event)
  | s, [] => some (s, [])
  | s, action :: actions => do
    let (s', event) ← step s action
    let (s'', events) ← run step s' actions
    pure (s'', event.toList ++ events)

/-- The specification accepts what a step from a related state shows. -/
def Simulates (step : State → Action → Option (State × Option Event))
    (accept : Spec → Event → Option Spec) (R : State → Spec → Prop) : Prop :=
  ∀ s a action s' event, R s a → step s action = some (s', event) →
    ∃ a', event.toList.foldlM accept a = some a' ∧ R s' a'

/-- What a run shows is accepted. -/
theorem Simulates.run (h : Simulates step accept R) (hs : R s a)
    (hrun : Labelled.run step s actions = some (s', events)) :
    ∃ a', events.foldlM accept a = some a' ∧ R s' a' := by
  induction actions generalizing s a events with
  | nil =>
    obtain ⟨rfl, rfl⟩ := Prod.mk.inj (Option.some.inj hrun)
    exact ⟨a, rfl, hs⟩
  | cons action actions ih =>
    simp only [Labelled.run, Option.bind_eq_bind, Option.bind_eq_some_iff, Option.pure_def,
      Option.some.injEq, Prod.mk.injEq, Prod.exists] at hrun
    obtain ⟨s₁, event, hstep, s₂, rest, hrest, rfl, rfl⟩ := hrun
    obtain ⟨a₁, ha₁, hs₁⟩ := h s a action s₁ event hs hstep
    obtain ⟨a₂, ha₂, hs₂⟩ := ih hs₁ hrest
    exact ⟨a₂, by simp [List.foldlM_append, ha₁, ha₂], hs₂⟩

/-- If no step from a related state gets stuck then no run does. -/
theorem Simulates.run_defined (h : Simulates step accept R)
    (hdefined : ∀ s a action, R s a → ∃ out, step s action = some out) (hs : R s a)
    (actions : List Action) : ∃ out, Labelled.run step s actions = some out := by
  induction actions generalizing s a with
  | nil => exact ⟨(s, []), rfl⟩
  | cons action actions ih =>
    obtain ⟨⟨s₁, event⟩, hstep⟩ := hdefined s a action hs
    obtain ⟨a₁, -, hs₁⟩ := h s a action s₁ event hs hstep
    obtain ⟨⟨s₂, events⟩, hrest⟩ := ih hs₁
    exact ⟨(s₂, event.toList ++ events), by simp [Labelled.run, hstep, hrest]⟩

section Progress

variable {next : State → Option State} {inv : State → Prop} {n : Nat}

/-- A step repeated. -/
def repeated (next : State → Option State) : Nat → State → Option State
  | 0, s => some s
  | n + 1, s => (next s).bind (repeated next n)

theorem inv_of_repeated (hinv : ∀ s s', inv s → next s = some s' → inv s') (hs : inv s)
    (hrun : repeated next n s = some s') : inv s' := by
  induction n generalizing s with
  | zero => exact Option.some.inj hrun ▸ hs
  | succ n ih =>
    obtain ⟨s₁, hstep, hrest⟩ := Option.bind_eq_some_iff.mp hrun
    exact ih (hinv s s₁ hs hstep) hrest

/-- A goal that steps keep, and that each step reaches or gets nearer to, is met after as many
steps as it is away. -/
theorem goal_of_repeated (goal : State → Prop) (rank : State → Nat)
    (hinv : ∀ s s', inv s → next s = some s' → inv s')
    (hkeep : ∀ s s', goal s → next s = some s' → goal s')
    (hrank : ∀ s s', inv s → next s = some s' → goal s' ∨ rank s' < rank s)
    (hs : inv s) (hn : goal s ∨ rank s < n) (hrun : repeated next n s = some s') : goal s' := by
  induction n generalizing s with
  | zero =>
    obtain rfl := Option.some.inj hrun
    simpa using hn
  | succ n ih =>
    obtain ⟨s₁, hstep, hrest⟩ := Option.bind_eq_some_iff.mp hrun
    apply ih (hinv s s₁ hs hstep) ?_ hrest
    rcases hn with hgoal | hn
    · exact Or.inl (hkeep s s₁ hgoal hstep)
    · rcases hrank s s₁ hs hstep with hgoal | hless
      · exact Or.inl hgoal
      · exact Or.inr (by omega)

end Progress

end Labelled
