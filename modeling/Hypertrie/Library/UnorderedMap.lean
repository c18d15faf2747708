import Mathlib

/-! Associative containers whose iteration order is unspecified. An
implementation is any type with the four operations and the laws relating
them; nothing is assumed about the order in which `entries` lists a map. -/

/-- Finite maps with a lawful lookup and an arbitrary iteration order. -/
class UnorderedMap (M : Type → Type → Type) where
  empty {κ α : Type} : M κ α
  find {κ α : Type} [DecidableEq κ] : M κ α → κ → Option α
  assign {κ α : Type} [DecidableEq κ] : M κ α → κ → α → M κ α
  erase {κ α : Type} [DecidableEq κ] : M κ α → κ → M κ α
  entries {κ α : Type} : M κ α → List (κ × α)
  find_empty {κ α : Type} [DecidableEq κ] (k : κ) : find (empty : M κ α) k = none
  find_assign {κ α : Type} [DecidableEq κ] (m : M κ α) (k : κ) (a : α) (k' : κ) :
    find (assign m k a) k' = if k' = k then some a else find m k'
  find_erase {κ α : Type} [DecidableEq κ] (m : M κ α) (k k' : κ) :
    find (erase m k) k' = if k' = k then none else find m k'
  mem_entries {κ α : Type} [DecidableEq κ] (m : M κ α) (k : κ) (a : α) :
    (k, a) ∈ entries m ↔ find m k = some a
  nodup_keys {κ α : Type} (m : M κ α) : ((entries m).map Prod.fst).Nodup

namespace UnorderedMap

variable {M : Type → Type → Type} [UnorderedMap M] {κ α β : Type}

def size (m : M κ α) : Nat := (entries m).length

variable [DecidableEq κ]

attribute [simp] find_empty

def contains (m : M κ α) (k : κ) : Bool := (find m k).isSome

/-- Insertion that keeps the value of a key that is already present. -/
def emplace (m : M κ α) (k : κ) (a : α) : M κ α :=
  if contains m k then m else assign m k a

@[simp]
theorem find_assign_self (m : M κ α) (k : κ) (a : α) : find (assign m k a) k = some a := by
  simp [find_assign]

@[simp]
theorem find_erase_self (m : M κ α) (k : κ) : find (erase m k) k = none := by
  simp [find_erase]

theorem find_assign_ne (m : M κ α) {k k' : κ} (a : α) (h : k' ≠ k) :
    find (assign m k a) k' = find m k' := by
  simp [find_assign, h]

theorem find_erase_ne (m : M κ α) {k k' : κ} (h : k' ≠ k) : find (erase m k) k' = find m k' := by
  simp [find_erase, h]

theorem contains_iff {m : M κ α} {k : κ} : contains m k = true ↔ ∃ a, find m k = some a :=
  Option.isSome_iff_exists

theorem contains_eq_false_iff {m : M κ α} {k : κ} : contains m k = false ↔ find m k = none := by
  simp [contains]

theorem contains_assign (m : M κ α) (k : κ) (a : α) (k' : κ) :
    contains (assign m k a) k' = true ↔ k' = k ∨ contains m k' = true := by
  unfold contains
  rw [find_assign]
  by_cases h : k' = k
  · simp [h]
  · simp [h]

theorem contains_erase (m : M κ α) (k k' : κ) :
    contains (erase m k) k' = true ↔ k' ≠ k ∧ contains m k' = true := by
  unfold contains
  rw [find_erase]
  by_cases h : k' = k
  · simp [h]
  · simp [h]

theorem find_emplace (m : M κ α) (k : κ) (a : α) (k' : κ) :
    find (emplace m k a) k' = if k' = k then some ((find m k).getD a) else find m k' := by
  unfold emplace contains
  cases h : find m k with
  | none => simp [find_assign]
  | some b =>
    by_cases hk : k' = k
    · simp [hk, h]
    · simp [hk]

omit [DecidableEq κ] in
theorem nodup_entries (m : M κ α) : (entries m).Nodup :=
  List.Nodup.of_map Prod.fst (nodup_keys m)

theorem entries_empty : entries (empty : M κ α) = [] := by
  apply List.eq_nil_iff_forall_not_mem.mpr
  rintro ⟨k, a⟩ h
  simp [mem_entries] at h

theorem mem_keys {m : M κ α} {k : κ} : k ∈ (entries m).map Prod.fst ↔ contains m k = true := by
  rw [contains_iff]
  constructor
  · intro h
    obtain ⟨⟨k', a⟩, ha, rfl⟩ := List.mem_map.mp h
    exact ⟨a, (mem_entries m k' a).mp ha⟩
  · rintro ⟨a, h⟩
    exact List.mem_map.mpr ⟨(k, a), (mem_entries m k a).mpr h, rfl⟩

theorem entries_assign_empty (k : κ) (a : α) : entries (assign (empty : M κ α) k a) = [(k, a)] := by
  refine List.perm_singleton.mp ((List.perm_ext_iff_of_nodup (nodup_entries _)
    (List.nodup_singleton _)).mpr fun p => ?_)
  obtain ⟨k', a'⟩ := p
  rw [mem_entries, find_assign, find_empty, List.mem_singleton, Prod.mk.injEq]
  by_cases hk : k' = k
  · simp [hk, eq_comm]
  · simp [hk]

/-- Two maps with the same lookups list the same entries, in some order. -/
theorem entries_perm_of_find_eq {m m' : M κ α} (h : ∀ k, find m k = find m' k) :
    (entries m).Perm (entries m') := by
  apply (List.perm_ext_iff_of_nodup (nodup_entries m) (nodup_entries m')).mpr
  rintro ⟨k, a⟩
  rw [mem_entries, mem_entries, h]

theorem entries_perm_erase {m : M κ α} {k : κ} {a : α} (h : find m k = some a) :
    (entries m).Perm ((k, a) :: entries (erase m k)) := by
  have hnot : (k, a) ∉ entries (erase m k) := by simp [mem_entries]
  apply (List.perm_ext_iff_of_nodup (nodup_entries m)
    (List.nodup_cons.mpr ⟨hnot, nodup_entries _⟩)).mpr
  rintro ⟨k', b⟩
  rw [List.mem_cons, mem_entries, mem_entries, find_erase]
  by_cases hk : k' = k
  · subst hk
    simp only [h, Option.some.injEq, Prod.mk.injEq, true_and, if_true, reduceCtorEq, or_false]
    exact eq_comm
  · simp [hk]

theorem entries_assign_perm (m : M κ α) (k : κ) (a : α) :
    (entries (assign m k a)).Perm ((k, a) :: entries (erase m k)) := by
  refine (entries_perm_erase (find_assign_self m k a)).trans (List.Perm.cons _ ?_)
  apply entries_perm_of_find_eq
  intro k'
  by_cases hk : k' = k
  · simp [hk]
  · simp [find_erase_ne _ hk, find_assign_ne _ a hk]

section Sum

variable {β : Type} [AddCommMonoid β]

/-- Sum of a weight over the entries of a map. It does not depend on the order. -/
def total (f : κ × α → β) (m : M κ α) : β := ((entries m).map f).sum

theorem total_congr_find {f : κ × α → β} {m m' : M κ α} (h : ∀ k, find m k = find m' k) :
    total f m = total f m' :=
  ((entries_perm_of_find_eq h).map f).sum_eq

theorem total_of_find {m : M κ α} {k : κ} {a : α} (f : κ × α → β) (h : find m k = some a) :
    total f m = f (k, a) + total f (erase m k) := by
  simpa [total] using ((entries_perm_erase h).map f).sum_eq

theorem total_assign (f : κ × α → β) (m : M κ α) (k : κ) (a : α) :
    total f (assign m k a) = f (k, a) + total f (erase m k) := by
  simpa [total] using ((entries_assign_perm m k a).map f).sum_eq

theorem total_erase_of_none {m : M κ α} {k : κ} (f : κ × α → β) (h : find m k = none) :
    total f (erase m k) = total f m := by
  apply total_congr_find
  intro k'
  by_cases hk : k' = k
  · simp [hk, h]
  · exact find_erase_ne m hk

theorem total_empty (f : κ × α → β) : total f (empty : M κ α) = 0 := by
  simp [total, entries_empty]

end Sum

section Occurrences

variable [DecidableEq α]

/-- How many keys are mapped to `a`. -/
def occurrences (m : M κ α) (a : α) : Nat := total (fun p => if p.2 = a then 1 else 0) m

/-- 1 if the lookup result is `a`. -/
def hits (found : Option α) (a : α) : Int := if found = some a then 1 else 0

@[simp]
theorem hits_none (a : α) : hits none a = 0 := by simp [hits]

theorem hits_some (a b : α) : hits (some a) b = if b = a then 1 else 0 := by
  by_cases h : a = b
  · simp [hits, h]
  · simp [hits, h, Ne.symm h]

theorem occurrences_congr {m m' : M κ α} (h : ∀ k, find m k = find m' k) (a : α) :
    occurrences m a = occurrences m' a :=
  total_congr_find h

@[simp]
theorem occurrences_empty (a : α) : occurrences (empty : M κ α) a = 0 := total_empty _

theorem occurrences_erase (m : M κ α) (k : κ) (a : α) :
    (occurrences (erase m k) a : Int) = occurrences m a - hits (find m k) a := by
  unfold occurrences
  cases h : find m k with
  | none => simp [total_erase_of_none _ h]
  | some b =>
    rw [total_of_find _ h]
    by_cases hb : b = a
    · simp [hits, hb]
    · simp [hits, hb]

theorem occurrences_assign (m : M κ α) (k : κ) (b a : α) :
    (occurrences (assign m k b) a : Int) = occurrences m a + hits (some b) a - hits (find m k) a := by
  have he := occurrences_erase m k a
  have ha : occurrences (assign m k b) a = (if b = a then 1 else 0) + occurrences (erase m k) a :=
    total_assign _ m k b
  rw [ha]
  by_cases hb : b = a
  · simp only [hits, hb, if_true] at he ⊢
    push_cast
    omega
  · simp only [hits, hb, if_false, Option.some.injEq] at he ⊢
    push_cast
    omega

/-- Changing the lookup of one key changes the occurrences by what it was and what it becomes. -/
theorem occurrences_of_update {m m' : M κ α} {k : κ} {found : Option α}
    (h : ∀ k', find m' k' = if k' = k then found else find m k') (a : α) :
    (occurrences m' a : Int) = occurrences m a + hits found a - hits (find m k) a := by
  cases found with
  | none =>
    have hm : occurrences m' a = occurrences (erase m k) a := by
      apply occurrences_congr
      intro k'
      rw [h, find_erase]
    rw [hm, occurrences_erase, hits_none, add_zero]
  | some b =>
    have hm : occurrences m' a = occurrences (assign m k b) a := by
      apply occurrences_congr
      intro k'
      rw [h, find_assign]
    rw [hm, occurrences_assign]

theorem occurrences_pos {m : M κ α} {a : α} : 0 < occurrences m a ↔ ∃ k, find m k = some a := by
  constructor
  · intro h
    by_contra hn
    have hz : occurrences m a = 0 := by
      unfold occurrences total
      apply List.sum_eq_zero
      intro x hx
      obtain ⟨⟨k, b⟩, hb, rfl⟩ := List.mem_map.mp hx
      have hf := (mem_entries m k b).mp hb
      have hne : b ≠ a := fun hba => hn ⟨k, hba ▸ hf⟩
      simp [hne]
    omega
  · rintro ⟨k, hk⟩
    have he := occurrences_erase m k a
    simp only [hits, hk, if_true] at he
    omega

/-- The occurrences of a map are those under the keys it lists. -/
theorem occurrences_eq_sum (m : M κ α) (a : α) :
    (occurrences m a : Int) = (((entries m).map Prod.fst).map (fun k => hits (find m k) a)).sum := by
  unfold occurrences total
  rw [List.map_map, Nat.cast_list_sum, List.map_map]
  congr 1
  apply List.map_congr_left
  rintro ⟨k, b⟩ hb
  have hf := (mem_entries m k b).mp hb
  simp [hits, hf]

end Occurrences

end UnorderedMap
