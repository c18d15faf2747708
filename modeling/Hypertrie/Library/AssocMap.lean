import Hypertrie.Library.UnorderedMap

/-! Association lists with distinct keys, the simplest unordered map. -/

structure AssocMap (κ α : Type) where
  entries : List (κ × α)
  nodup : (entries.map Prod.fst).Nodup

namespace AssocMap

variable {κ α : Type}

def empty : AssocMap κ α := ⟨[], List.nodup_nil⟩

variable [DecidableEq κ]

def find (m : AssocMap κ α) (k : κ) : Option α := m.entries.lookup k

def erase (m : AssocMap κ α) (k : κ) : AssocMap κ α :=
  ⟨m.entries.filter (fun p => p.1 ≠ k), m.nodup.sublist (List.filter_sublist.map Prod.fst)⟩

theorem not_mem_keys_erase (m : AssocMap κ α) (k : κ) : k ∉ (m.erase k).entries.map Prod.fst := by
  intro h
  obtain ⟨p, hp, rfl⟩ := List.mem_map.mp h
  simp [erase] at hp

def assign (m : AssocMap κ α) (k : κ) (a : α) : AssocMap κ α :=
  ⟨(k, a) :: (m.erase k).entries, List.nodup_cons.mpr ⟨m.not_mem_keys_erase k, (m.erase k).nodup⟩⟩

theorem lookup_filter_ne (l : List (κ × α)) (k k' : κ) :
    (l.filter (fun p => p.1 ≠ k)).lookup k' = if k' = k then none else l.lookup k' := by
  induction l with
  | nil => simp
  | cons p l ih =>
    obtain ⟨a, b⟩ := p
    by_cases ha : a = k
    · rw [List.filter_cons_of_neg (by simpa using ha), ih]
      by_cases hk : k' = k
      · rw [if_pos hk, if_pos hk]
      · have hb : (k' == a) = false := by simpa [ha] using hk
        rw [if_neg hk, if_neg hk, List.lookup_cons, hb]
    · rw [List.filter_cons_of_pos (by simpa using ha), List.lookup_cons, List.lookup_cons, ih]
      by_cases hk : k' = a
      · have hne : k' ≠ k := fun he => ha (hk.symm.trans he)
        rw [if_neg hne, if_neg hne]
      · have hb : (k' == a) = false := by simpa using hk
        rw [hb]

theorem mem_iff_lookup {l : List (κ × α)} (hl : (l.map Prod.fst).Nodup) (k : κ) (a : α) :
    (k, a) ∈ l ↔ l.lookup k = some a := by
  induction l with
  | nil => simp
  | cons p l ih =>
    obtain ⟨k', b⟩ := p
    rw [List.map_cons, List.nodup_cons] at hl
    rw [List.mem_cons, List.lookup_cons, ih hl.2]
    by_cases hk : k = k'
    · subst hk
      have hnot : l.lookup k ≠ some a := fun hf =>
        hl.1 (List.mem_map.mpr ⟨(k, a), (ih hl.2).mpr hf, rfl⟩)
      simp [hnot, eq_comm]
    · have hb : (k == k') = false := by simpa using hk
      simp [hb, hk]

instance : UnorderedMap AssocMap where
  empty := empty
  find := find
  assign := assign
  erase := erase
  entries := entries
  find_empty _ := rfl
  find_assign m k a k' := by
    have h := lookup_filter_ne m.entries k k'
    show ((k, a) :: (m.erase k).entries).lookup k' = if k' = k then some a else m.entries.lookup k'
    rw [List.lookup_cons]
    by_cases hk : k' = k
    · simp [hk]
    · have hb : (k' == k) = false := by simpa using hk
      rw [hb, if_neg hk]
      rw [if_neg hk] at h
      exact h
  find_erase m k k' := lookup_filter_ne m.entries k k'
  mem_entries m := mem_iff_lookup m.nodup
  nodup_keys := nodup

end AssocMap
