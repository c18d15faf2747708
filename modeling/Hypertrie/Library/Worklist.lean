import Hypertrie.Library.Ensures

/-! Reachability by a work list. What has been visited is closed under the
successors, except for those that wait in the list. -/

namespace Worklist

variable {α : Type} [DecidableEq α] {next : α → Option (List α)}

/-- The head of the list is visited unless it has been, and its successors wait at the end.
Looking up successors may fail. -/
def run (next : α → Option (List α)) : Nat → List α → Finset α → Option (Finset α)
  | 0, _, _ => none
  | _ + 1, [], visited => some visited
  | fuel + 1, a :: waiting, visited =>
    if a ∈ visited then run next fuel waiting visited
    else do
      let successors ← next a
      run next fuel (waiting ++ successors) (insert a visited)

def Edge (next : α → Option (List α)) (a b : α) : Prop := ∃ l, next a = some l ∧ b ∈ l

/-- The elements that can be met: each has successors, which are among them. -/
structure Closed (next : α → Option (List α)) (all : Finset α) : Prop where
  next : ∀ a ∈ all, ∃ l, next a = some l ∧ ∀ b ∈ l, b ∈ all

/-- How often elements may still be put into the list. -/
def remaining (next : α → Option (List α)) (all visited : Finset α) : Nat :=
  ∑ a ∈ all \ visited, ((next a).getD []).length

/-- The search from `start`, with a list that waits and a set that has been visited. -/
structure Searching (next : α → Option (List α)) (start waiting : List α) (visited : Finset α) :
    Prop where
  started : ∀ a ∈ start, a ∈ visited ∨ a ∈ waiting
  sound : ∀ a, a ∈ visited ∨ a ∈ waiting → ∃ s ∈ start, Relation.ReflTransGen (Edge next) s a
  closed : ∀ a ∈ visited, ∀ b, Edge next a b → b ∈ visited ∨ b ∈ waiting

variable {start waiting : List α} {visited all : Finset α} {a : α}

omit [DecidableEq α] in
theorem Searching.initial (next : α → Option (List α)) (start : List α) :
    Searching next start start ∅ where
  started _ h := Or.inr h
  sound a h := ⟨a, h.resolve_left (Finset.notMem_empty a), .refl⟩
  closed _ h := absurd h (Finset.notMem_empty _)

omit [DecidableEq α] in
theorem Searching.skip (h : Searching next start (a :: waiting) visited) (ha : a ∈ visited) :
    Searching next start waiting visited := by
  have hdrop (b) (hb : b ∈ visited ∨ b ∈ a :: waiting) : b ∈ visited ∨ b ∈ waiting := by
    rcases hb with hb | hb
    · exact Or.inl hb
    · rcases List.mem_cons.mp hb with rfl | hb
      · exact Or.inl ha
      · exact Or.inr hb
  constructor
  · exact fun b hb => hdrop b (h.started b hb)
  · exact fun b hb => h.sound b (hb.imp_right (List.mem_cons_of_mem a))
  · exact fun b hb c hc => hdrop c (h.closed b hb c hc)

theorem Searching.visit (h : Searching next start (a :: waiting) visited) {successors : List α}
    (ha : next a = some successors) :
    Searching next start (waiting ++ successors) (insert a visited) := by
  have hkeep (b) (hb : b ∈ visited ∨ b ∈ a :: waiting) :
      b ∈ insert a visited ∨ b ∈ waiting ++ successors := by
    rcases hb with hb | hb
    · exact Or.inl (Finset.mem_insert_of_mem hb)
    · rcases List.mem_cons.mp hb with rfl | hb
      · exact Or.inl (Finset.mem_insert_self _ _)
      · exact Or.inr (List.mem_append_left _ hb)
  constructor
  · exact fun b hb => hkeep b (h.started b hb)
  · intro b hb
    rcases hb with hb | hb
    · rcases Finset.mem_insert.mp hb with rfl | hb
      · exact h.sound b (Or.inr List.mem_cons_self)
      · exact h.sound b (Or.inl hb)
    · rcases List.mem_append.mp hb with hb | hb
      · exact h.sound b (Or.inr (List.mem_cons_of_mem _ hb))
      · obtain ⟨s, hs, hreach⟩ := h.sound a (Or.inr List.mem_cons_self)
        exact ⟨s, hs, hreach.tail ⟨successors, ha, hb⟩⟩
  · intro b hb c hc
    rcases Finset.mem_insert.mp hb with rfl | hb
    · obtain ⟨l, hl, hc⟩ := hc
      obtain rfl : successors = l := Option.some.inj (ha.symm.trans hl)
      exact Or.inr (List.mem_append_right _ hc)
    · exact hkeep c (h.closed b hb c hc)

omit [DecidableEq α] in
/-- When nothing waits any more, what has been visited is what can be reached. -/
theorem Searching.mem_iff (h : Searching next start [] visited) (b : α) :
    b ∈ visited ↔ ∃ s ∈ start, Relation.ReflTransGen (Edge next) s b := by
  constructor
  · exact fun hb => h.sound b (Or.inl hb)
  · rintro ⟨s, hs, hreach⟩
    induction hreach with
    | refl => exact (h.started s hs).resolve_right List.not_mem_nil
    | tail _ hedge ih => exact (h.closed _ ih _ hedge).resolve_right List.not_mem_nil

theorem remaining_insert (hall : a ∈ all) (hv : a ∉ visited) {successors : List α}
    (ha : next a = some successors) :
    remaining next all (insert a visited) + successors.length = remaining next all visited := by
  have hmem : a ∈ all \ visited := Finset.mem_sdiff.mpr ⟨hall, hv⟩
  have hsum := Finset.add_sum_erase _ (fun a => ((next a).getD []).length) hmem
  rw [remaining, remaining, Finset.sdiff_insert, ← hsum, ha, Option.getD_some, Nat.add_comm]

/-- With fuel for every successor of every element the run ends, with what can be reached. -/
theorem run_spec (hclosed : Closed next all) {fuel : Nat} (h : Searching next start waiting visited)
    (hwaiting : ∀ a ∈ waiting, a ∈ all)
    (hfuel : waiting.length + remaining next all visited < fuel) :
    Ensures (run next fuel waiting visited) (fun visited' => ∀ b, b ∈ visited' ↔
      ∃ s ∈ start, Relation.ReflTransGen (Edge next) s b) := by
  induction fuel generalizing waiting visited with
  | zero => exact absurd hfuel (Nat.not_lt_zero _)
  | succ fuel ih =>
    cases waiting with
    | nil => exact Ensures.pure h.mem_iff
    | cons a waiting =>
      rw [List.length_cons] at hfuel
      rw [run]
      by_cases ha : a ∈ visited
      · rw [if_pos ha]
        apply ih (h.skip ha) (fun b hb => hwaiting b (List.mem_cons_of_mem a hb))
        omega
      · have hall := hwaiting a List.mem_cons_self
        obtain ⟨successors, hnext, hsub⟩ := hclosed.next a hall
        have hremaining := remaining_insert hall ha hnext
        rw [if_neg ha, hnext]
        apply ih (h.visit hnext)
        · intro b hb
          rcases List.mem_append.mp hb with hb | hb
          · exact hwaiting b (List.mem_cons_of_mem a hb)
          · exact hsub b hb
        · rw [List.length_append]
          omega

end Worklist
