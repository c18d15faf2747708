import Mathlib

/-! Exclusive or of a word-valued weight over a finite set. It is a sum in a
group where every element is its own inverse, so removing a subset is the same
operation as adding it. -/

def xorSum {α : Type} {w : Nat} (f : α → BitVec w) (S : Finset α) : BitVec w :=
  S.fold (fun a b => a ^^^ b) 0 f

variable {α : Type} {w : Nat} {f : α → BitVec w}

@[simp]
theorem xorSum_empty : xorSum f ∅ = 0 := rfl

@[simp]
theorem xorSum_singleton (a : α) : xorSum f {a} = f a := by
  simp [xorSum]

variable [DecidableEq α]

theorem xorSum_insert {a : α} {S : Finset α} (h : a ∉ S) :
    xorSum f (insert a S) = f a ^^^ xorSum f S :=
  Finset.fold_insert h

theorem xorSum_union {S T : Finset α} (h : Disjoint S T) :
    xorSum f (S ∪ T) = xorSum f S ^^^ xorSum f T := by
  induction S using Finset.induction_on with
  | empty => simp
  | insert a S ha ih =>
    have hd := Finset.disjoint_insert_left.mp h
    rw [Finset.insert_union, xorSum_insert (by simp [ha, hd.1]), xorSum_insert ha, ih hd.2,
      BitVec.xor_assoc]

theorem xorSum_sdiff {S T : Finset α} (h : T ⊆ S) :
    xorSum f (S \ T) = xorSum f T ^^^ xorSum f S := by
  have hu := xorSum_union (f := f) (Finset.sdiff_disjoint (s := T) (t := S))
  rw [Finset.sdiff_union_of_subset h] at hu
  rw [hu, BitVec.xor_comm, BitVec.xor_assoc, BitVec.xor_self, BitVec.xor_zero]

/-- A left fold over a duplicate-free list computes the sum of its set. -/
theorem foldl_xor_eq {l : List α} (h : l.Nodup) (seed : BitVec w) :
    l.foldl (fun acc a => acc ^^^ f a) seed = seed ^^^ xorSum f l.toFinset := by
  induction l generalizing seed with
  | nil => simp
  | cons a l ih =>
    have hn := List.nodup_cons.mp h
    rw [List.foldl_cons, ih hn.2, List.toFinset_cons, xorSum_insert (by simpa using hn.1),
      BitVec.xor_assoc]
