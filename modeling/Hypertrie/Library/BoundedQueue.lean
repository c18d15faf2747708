import Mathlib.Data.List.Basic

/-! A first-in first-out queue of bounded length, and what its calls return. -/

/-- The items from the front to the back. -/
structure BoundedQueue (α : Type) (capacity : Nat) where
  items : List α
  bounded : items.length ≤ capacity

/-- What a call returned. -/
inductive QueueEvent (α : Type) where
  | wrote (a : α)
  | foundFull (a : α)
  | took (a : α)
  | foundEmpty
  deriving DecidableEq

namespace QueueEvent

variable {α : Type}

def written : QueueEvent α → List α
  | wrote a => [a]
  | _ => []

def taken : QueueEvent α → List α
  | took a => [a]
  | _ => []

end QueueEvent

namespace BoundedQueue

variable {α : Type} {capacity : Nat}

def empty : BoundedQueue α capacity := ⟨[], Nat.zero_le _⟩

@[simp]
theorem items_empty : (empty : BoundedQueue α capacity).items = [] := rfl

variable [DecidableEq α]

/-- Whether a call may return this, and the queue after it. -/
def accept (q : BoundedQueue α capacity) : QueueEvent α → Option (BoundedQueue α capacity)
  | .wrote a =>
    if h : q.items.length < capacity then
      some ⟨q.items ++ [a], by rw [List.length_append, List.length_singleton]; exact h⟩
    else none
  | .foundFull _ => if q.items.length = capacity then some q else none
  | .took a =>
    if q.items.head? = some a then
      some ⟨q.items.tail, by rw [List.length_tail]; exact Nat.le_trans (Nat.sub_le _ _) q.bounded⟩
    else none
  | .foundEmpty => if q.items = [] then some q else none

/-- The items that were taken and those that are left are the items that were written. -/
theorem accept_order {q q' : BoundedQueue α capacity} {e : QueueEvent α} (h : q.accept e = some q') :
    e.taken ++ q'.items = q.items ++ e.written := by
  cases e with
  | wrote a =>
    simp only [accept, Option.dite_none_right_eq_some, Option.some.injEq] at h
    obtain ⟨-, rfl⟩ := h
    rfl
  | foundFull a =>
    simp only [accept, Option.ite_none_right_eq_some, Option.some.injEq] at h
    simp [QueueEvent.taken, QueueEvent.written, h.2]
  | took a =>
    simp only [accept, Option.ite_none_right_eq_some, Option.some.injEq] at h
    obtain ⟨hhead, rfl⟩ := h
    obtain ⟨rest, hrest⟩ := List.head?_eq_some_iff.mp hhead
    simp [QueueEvent.taken, QueueEvent.written, hrest]
  | foundEmpty =>
    simp only [accept, Option.ite_none_right_eq_some, Option.some.injEq] at h
    simp [QueueEvent.taken, QueueEvent.written, h.2]

theorem run_order {q q' : BoundedQueue α capacity} {events : List (QueueEvent α)}
    (h : events.foldlM accept q = some q') :
    events.flatMap QueueEvent.taken ++ q'.items = q.items ++ events.flatMap QueueEvent.written := by
  induction events generalizing q with
  | nil =>
    cases h
    simp
  | cons e events ih =>
    rw [List.foldlM_cons, Option.bind_eq_bind, Option.bind_eq_some_iff] at h
    obtain ⟨q'', he, hrun⟩ := h
    rw [List.flatMap_cons, List.append_assoc, ih hrun, ← List.append_assoc, accept_order he]
    simp

end BoundedQueue
