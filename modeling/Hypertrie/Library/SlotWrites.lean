import Mathlib

/-! A run of writes to the slots of a list. What a slot holds afterwards is
decided by the last write to it. -/

/-- One write for each element of the list, in order. `R` says what may be written for an element,
and `slot` where. -/
inductive SlotWrites {α β : Type} (R : α → β → Prop) (slot : α → Nat) :
    List α → List β → List β → Prop where
  | nil {slots : List β} : SlotWrites R slot [] slots slots
  | cons {a : α} {b : β} {rest : List α} {slots slots' : List β} (hb : R a b)
      (hrest : SlotWrites R slot rest (slots.set (slot a) b) slots') :
      SlotWrites R slot (a :: rest) slots slots'

namespace SlotWrites

variable {α β : Type} {R : α → β → Prop} {slot : α → Nat} {l l' : List α}
variable {slots slots' slots'' : List β} {q : Nat}

theorem length_eq (h : SlotWrites R slot l slots slots') : slots'.length = slots.length := by
  induction h with
  | nil => rfl
  | cons _ _ ih => rw [ih, List.length_set]

theorem append (h : SlotWrites R slot l slots slots') (h' : SlotWrites R slot l' slots' slots'') :
    SlotWrites R slot (l ++ l') slots slots'' := by
  induction h with
  | nil => exact h'
  | cons hb _ ih => exact .cons hb (ih h')

theorem singleton {a : α} {b : β} (hb : R a b) :
    SlotWrites R slot [a] slots (slots.set (slot a) b) :=
  .cons hb .nil

/-- A slot that is not written to keeps what it holds. -/
theorem getElem?_of_not_written (h : SlotWrites R slot l slots slots') (hq : ∀ a ∈ l, slot a ≠ q) :
    slots'[q]? = slots[q]? := by
  induction h with
  | nil => rfl
  | @cons a b rest slots slots' _ _ ih =>
    rw [ih fun c hc => hq c (List.mem_cons_of_mem _ hc),
      List.getElem?_set_ne (hq a List.mem_cons_self)]

/-- A slot that is written to holds what its last write has put there. -/
theorem getElem?_of_last {a : α} {before after : List α}
    (h : SlotWrites R slot (before ++ a :: after) slots slots')
    (hlast : ∀ c ∈ after, slot c ≠ slot a) (hlt : slot a < slots.length) :
    ∃ b, slots'[slot a]? = some b ∧ R a b := by
  induction before generalizing slots with
  | nil =>
    cases h with
    | @cons a b rest slots slots' hb hrest =>
      refine ⟨b, ?_, hb⟩
      rw [hrest.getElem?_of_not_written hlast, List.getElem?_set_self hlt]
  | cons c before ih =>
    cases h with
    | cons _ hrest => exact ih hrest (by rwa [List.length_set])

/-- If anything is written to a slot, one of the writes is the last. -/
theorem exists_last {a : α} (ha : a ∈ l) (slot : α → Nat) : ∃ before b after,
    l = before ++ b :: after ∧ slot b = slot a ∧ ∀ c ∈ after, slot c ≠ slot b := by
  have hsome : (l.reverse.find? (fun b => slot b = slot a)).isSome = true :=
    List.find?_isSome.mpr ⟨a, List.mem_reverse.mpr ha, by simp⟩
  obtain ⟨b, hb⟩ := Option.isSome_iff_exists.mp hsome
  obtain ⟨hslot, after, before, hl, hafter⟩ := List.find?_eq_some_iff_append.mp hb
  have hslot : slot b = slot a := by simpa using hslot
  refine ⟨before.reverse, b, after.reverse, ?_, hslot, fun c hc => ?_⟩
  · rw [← List.reverse_reverse l, hl]
    simp
  · have := hafter c (List.mem_reverse.mp hc)
    rw [hslot]
    simpa using this

end SlotWrites
