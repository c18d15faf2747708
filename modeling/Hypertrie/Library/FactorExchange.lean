import Mathlib

/-! Exchanging factors of a product one after the other, each by a multiplication
and a division. If numbers wrap around, an overflow is never made up for. -/

namespace FactorExchange

variable {m product product' value : Nat} {pairs : List (Nat × Nat)}

/-- The product goes from `product` to `product'` as the first number of each pair is exchanged for
the second one. -/
inductive Exchanges : Nat → List (Nat × Nat) → Nat → Prop where
  | nil (product : Nat) : Exchanges product [] product
  | cons {others last current product' : Nat} {pairs : List (Nat × Nat)} (hlast : 0 < last)
      (hcurrent : 0 < current) (hrest : Exchanges (others * current) pairs product') :
      Exchanges (others * last) ((last, current) :: pairs) product'

/-- Exchanges a factor, given how numbers are multiplied. -/
def exchange (mul : Nat → Nat → Nat) (value : Nat) (pair : Nat × Nat) : Nat :=
  mul value pair.2 / pair.1

/-- The multiplication of unsigned numbers below `m`. -/
def mulMod (m a b : Nat) : Nat := a * b % m

/-- No multiplication on the way reaches `m`. -/
def Below (m : Nat) : Nat → List (Nat × Nat) → Prop
  | _, [] => True
  | product, (last, current) :: pairs =>
    product * current < m ∧ Below m (product * current / last) pairs

theorem exchange_mul {last : Nat} (hlast : 0 < last) (others current : Nat) :
    others * last * current / last = others * current := by
  rw [mul_right_comm, Nat.mul_div_cancel _ hlast]

theorem Exchanges.foldl_mul (h : Exchanges product pairs product') :
    pairs.foldl (exchange (· * ·)) product = product' := by
  induction h with
  | nil => rfl
  | @cons others last current product' pairs hlast _ _ ih =>
    rw [List.foldl_cons, exchange, exchange_mul hlast, ih]

/-- A value below the product stays below it. -/
theorem Exchanges.foldl_mulMod_lt (h : Exchanges product pairs product') (m : Nat)
    (hv : value < product) : pairs.foldl (exchange (mulMod m)) value < product' := by
  induction h generalizing value with
  | nil => exact hv
  | @cons others last current product' pairs hlast hcurrent _ ih =>
    refine ih ?_
    rw [exchange, mulMod, Nat.div_lt_iff_lt_mul hlast]
    calc value * current % m ≤ value * current := Nat.mod_le _ _
      _ < others * last * current := Nat.mul_lt_mul_of_pos_right hv hcurrent
      _ = others * current * last := mul_right_comm _ _ _

theorem exchange_mulMod_lt {others last current : Nat} (hm : 0 < m) (hlast : 0 < last)
    (h : m ≤ others * last * current) :
    exchange (mulMod m) (others * last) (last, current) < others * current := by
  rw [exchange, mulMod, Nat.div_lt_iff_lt_mul hlast]
  calc others * last * current % m < m := Nat.mod_lt _ hm
    _ ≤ others * last * current := h
    _ = others * current * last := mul_right_comm _ _ _

/-- The result is right only if it was right before and no multiplication overflows. -/
theorem Exchanges.foldl_mulMod_eq_iff (h : Exchanges product pairs product') (hm : 0 < m)
    (hv : value ≤ product) : pairs.foldl (exchange (mulMod m)) value = product' ↔
      value = product ∧ Below m product pairs := by
  rcases Nat.lt_or_eq_of_le hv with hlt | rfl
  · exact iff_of_false (h.foldl_mulMod_lt m hlt).ne fun heq => hlt.ne heq.1
  · rw [and_iff_right rfl]
    clear hv
    induction h with
    | nil => exact iff_of_true rfl trivial
    | @cons others last current product' pairs hlast hcurrent hrest ih =>
      rw [List.foldl_cons, Below]
      by_cases hover : others * last * current < m
      · have hexact : exchange (mulMod m) (others * last) (last, current) = others * current := by
          rw [exchange, mulMod, Nat.mod_eq_of_lt hover, exchange_mul hlast]
        rw [hexact, exchange_mul hlast, ih, and_iff_right hover]
      · have hlt := exchange_mulMod_lt hm hlast (not_lt.mp hover)
        exact iff_of_false (hrest.foldl_mulMod_lt m hlt).ne fun h => hover h.1

theorem Exchanges.foldl_mulMod_le (h : Exchanges product pairs product') (m : Nat)
    (hv : value ≤ product) : pairs.foldl (exchange (mulMod m)) value ≤ product' := by
  induction h generalizing value with
  | nil => exact hv
  | @cons others last current product' pairs _ _ _ ih =>
    refine ih (Nat.div_le_of_le_mul ?_)
    calc value * current % m ≤ value * current := Nat.mod_le _ _
      _ ≤ others * last * current := Nat.mul_le_mul_right _ hv
      _ = last * (others * current) := by ring

end FactorExchange
