import Hypertrie.Library.Tally

/-! What a list of weighted keys weighs at each key, for products of such lists.
A value may be one that cannot exceed one. -/

namespace Weighted

variable {β γ : Type} [DecidableEq β] [DecidableEq γ]

/-- A number as a value; a saturating one only says whether the number is zero. -/
def amount (saturating : Bool) (n : ℕ) : ℕ := if saturating then min n 1 else n

section Amount

variable {saturating : Bool} {m n : ℕ}

theorem amount_eq_zero : amount saturating n = 0 ↔ n = 0 := by
  cases saturating with
  | false => exact Iff.rfl
  | true =>
    rw [amount, if_pos rfl]
    omega

theorem amount_of_ne_zero (h : n ≠ 0) : amount true n = 1 := by
  rw [amount, if_pos rfl]
  omega

theorem amount_mul (saturating : Bool) (m n : ℕ) :
    amount saturating (m * n) = amount saturating m * amount saturating n := by
  cases saturating with
  | false => rfl
  | true =>
    by_cases hm : m = 0
    · simp [hm, amount]
    by_cases hn : n = 0
    · simp [hn, amount]
    rw [amount_of_ne_zero (Nat.mul_ne_zero hm hn), amount_of_ne_zero hm, amount_of_ne_zero hn]

theorem amount_prod (saturating : Bool) (ns : List ℕ) :
    amount saturating ns.prod = (ns.map (amount saturating)).prod := by
  induction ns with
  | nil => cases saturating <;> rfl
  | cons n ns ih => rw [List.prod_cons, amount_mul, ih, List.map_cons, List.prod_cons]

end Amount

theorem weight_map_of_injective {f : β → γ} (hf : Function.Injective f) (out : List (Weighted β))
    (b : β) : weight (out.map (mapKey f)) (f b) = weight out b := by
  rw [weight_map_mapKey, weight]
  congr 2
  apply List.filter_congr
  intro e _
  simp [hf.eq_iff]

/-- A tuple weighs as much as its entries together. -/
theorem weight_tuples {outs : List (List (Weighted β))} {keys : List β}
    (h : keys.length = outs.length) :
    weight (tuples outs) keys = (List.zipWith weight outs keys).prod := by
  induction outs generalizing keys with
  | nil =>
    rw [List.length_eq_zero_iff.mp h]
    rfl
  | cons out outs ih =>
    obtain ⟨key, keys, rfl⟩ := List.exists_cons_of_length_eq_add_one h
    have hinj : Function.Injective fun p : β × List β => p.1 :: p.2 := by
      rintro ⟨b, bs⟩ ⟨c, cs⟩ heq
      simpa using heq
    have hpair := weight_map_of_injective hinj (pairs out (tuples outs)) (key, keys)
    rw [tuples_cons, hpair, weight_pairs, ih (by simpa using h)]
    rfl

omit [DecidableEq β] in
/-- The last list varies slowest. -/
theorem tuples_concat (outs : List (List (Weighted β))) (out : List (Weighted β)) :
    tuples (outs ++ [out]) = out.flatMap fun e =>
      (tuples outs).map fun tuple => ⟨tuple.key ++ [e.key], tuple.value * e.value⟩ := by
  induction outs with
  | nil =>
    rw [List.nil_append, tuples_cons]
    simp [tuples, pairs, List.map_eq_flatMap, List.flatMap_assoc, mapKey]
  | cons out' outs ih =>
    rw [List.cons_append, tuples, ih, List.flatMap_assoc, tuples]
    simp only [List.map_flatMap, List.flatMap_map, List.map_map]
    simp [Function.comp_def, consTuple, mul_assoc]

omit [DecidableEq β] in
theorem keys_tuples (outs : List (List (Weighted β))) :
    (tuples outs).map (·.key) = (outs.map (List.map Weighted.key)).sections := by
  induction outs with
  | nil => rfl
  | cons out outs ih =>
    rw [tuples, List.map_cons, List.sections, ← ih, List.map_flatMap, List.flatMap_map]
    simp only [List.map_map]
    rfl

omit [DecidableEq β] in
theorem value_tuples {outs : List (List (Weighted β))} (h : ∀ out ∈ outs, ∀ e ∈ out, e.value ≠ 0) :
    ∀ tuple ∈ tuples outs, tuple.value ≠ 0 := by
  induction outs with
  | nil => simp [tuples]
  | cons out outs ih =>
    obtain ⟨hout, h⟩ := List.forall_mem_cons.mp h
    intro tuple hm
    obtain ⟨tuple', hm', hm⟩ := List.mem_flatMap.mp hm
    obtain ⟨e, he, rfl⟩ := List.mem_map.mp hm
    exact mul_ne_zero (hout e he) (ih h tuple' hm')

omit [DecidableEq β] in
theorem value_tuples_eq_one {outs : List (List (Weighted β))}
    (h : ∀ out ∈ outs, ∀ e ∈ out, e.value = 1) : ∀ tuple ∈ tuples outs, tuple.value = 1 := by
  induction outs with
  | nil => simp [tuples]
  | cons out outs ih =>
    obtain ⟨hout, h⟩ := List.forall_mem_cons.mp h
    intro tuple hm
    obtain ⟨tuple', hm', hm⟩ := List.mem_flatMap.mp hm
    obtain ⟨e, he, rfl⟩ := List.mem_map.mp hm
    rw [consTuple, hout e he, ih h tuple' hm']

/-- What holds of all second members holds of the second list. -/
theorem forall_mem_of_forall₂ {α α' : Type} {R : α → α' → Prop} {P : α' → Prop} {l : List α}
    {l' : List α'} (h : List.Forall₂ R l l') (hP : ∀ a b, R a b → P b) : ∀ b ∈ l', P b := by
  induction h with
  | nil => simp
  | cons hab _ ih => exact List.forall_mem_cons.mpr ⟨hP _ _ hab, ih⟩

section Renamed

variable {out : List (Weighted β)} {out' : List (Weighted γ)} {b : β} {c : γ} {value : ℕ}

/-- A key keeps its weight when the entries that have it get another one. -/
theorem weight_of_forall₂
    (h : List.Forall₂ (fun e e' => (e'.key = c ↔ e.key = b) ∧ e'.value = e.value) out out') :
    weight out' c = weight out b := by
  induction h with
  | nil => rfl
  | cons he _ ih => rw [weight_cons, weight_cons, ih, he.2, if_congr he.1 rfl rfl]

/-- The weight of a key when all values are the same and the entry of a key is the only one. -/
theorem weight_of_constant
    (h : List.Forall₂ (fun e e' => (e'.key = c ↔ e.key = b) ∧ e'.value = value) out out')
    (hn : (out.map (·.key)).Nodup) : weight out' c = if b ∈ out.map (·.key) then value else 0 := by
  induction h with
  | nil => rfl
  | @cons e e' out out' he _ ih =>
    obtain ⟨hnot, hn⟩ := List.nodup_cons.mp hn
    rw [weight_cons, ih hn, List.map_cons]
    by_cases hb : e.key = b
    · have hrest : b ∉ out.map (·.key) := hb ▸ hnot
      rw [if_pos (he.1.mpr hb), he.2, if_neg hrest, if_pos (List.mem_cons.mpr (.inl hb.symm))]
      rfl
    · rw [if_neg fun hc => hb (he.1.mp hc), zero_add]
      exact if_congr (by simp [Ne.symm hb]) rfl rfl

end Renamed

section Compared

variable {out out' : List (Weighted β)} {b : β}

/-- No entry weighs more. -/
theorem weight_le_of_forall₂ (h : List.Forall₂ (fun e e' => e.key = e'.key ∧ e.value ≤ e'.value) out out')
    (b : β) : weight out b ≤ weight out' b := by
  induction h with
  | nil => exact le_rfl
  | @cons e e' out out' he _ ih =>
    rw [weight_cons, weight_cons, he.1]
    split
    · exact Nat.add_le_add he.2 ih
    · exact Nat.add_le_add le_rfl ih

/-- If no entry weighs more but the keys weigh the same, the entries do. -/
theorem eq_of_weight_eq (h : List.Forall₂ (fun e e' => e.key = e'.key ∧ e.value ≤ e'.value) out out')
    (hw : ∀ b, weight out b = weight out' b) : out = out' := by
  induction h with
  | nil => rfl
  | @cons e e' out out' he hrest ih =>
    have hkey := hw e'.key
    rw [weight_cons, weight_cons, if_pos he.1, if_pos rfl] at hkey
    have hle := weight_le_of_forall₂ hrest e'.key
    have hvalue : e.value = e'.value := by
      have := he.2
      omega
    obtain ⟨key, value⟩ := e
    obtain ⟨key', value'⟩ := e'
    obtain rfl : key = key' := he.1
    obtain rfl : value = value' := hvalue
    congr 1
    refine ih fun b => ?_
    have hb := hw b
    rw [weight_cons, weight_cons] at hb
    omega

/-- A key weighs less where all values are below `n` than where its own are not. -/
theorem weight_lt_of_keys_eq {n : ℕ} (hkeys : out.map (·.key) = out'.map (·.key))
    (hlt : ∀ e ∈ out, e.value < n) (hle : ∀ e ∈ out', e.key = b → n ≤ e.value)
    (hb : b ∈ out'.map (·.key)) : weight out b < weight out' b := by
  have hboth : weight out b ≤ weight out' b ∧ (b ∈ out'.map (·.key) → weight out b < weight out' b) := by
    clear hb
    induction out generalizing out' with
    | nil =>
      obtain rfl := List.map_eq_nil_iff.mp hkeys.symm
      exact ⟨le_rfl, fun h => absurd h List.not_mem_nil⟩
    | cons e out ih =>
      obtain ⟨e', out', rfl⟩ := List.exists_cons_of_ne_nil (l := out') (by
        rintro rfl
        cases hkeys)
      obtain ⟨hkey, hkeys⟩ := List.cons.inj hkeys
      have hkey : e.key = e'.key := hkey
      obtain ⟨hfirst, hlt⟩ := List.forall_mem_cons.mp hlt
      obtain ⟨hfirst', hle⟩ := List.forall_mem_cons.mp hle
      obtain ⟨hrest, hstrict⟩ := ih hkeys hlt hle
      rw [weight_cons, weight_cons, hkey]
      by_cases hb : e'.key = b
      · have hn := hfirst' hb
        rw [if_pos hb, if_pos hb]
        exact ⟨by omega, fun _ => by omega⟩
      · rw [if_neg hb, if_neg hb, Nat.zero_add, Nat.zero_add]
        refine ⟨hrest, fun hm => hstrict ?_⟩
        rw [List.map_cons, List.mem_cons] at hm
        exact hm.resolve_left fun h => hb h.symm
  exact hboth.2 hb

omit [DecidableEq β] in
theorem tuples_ne_nil {outs : List (List (Weighted β))} (hne : ∀ out ∈ outs, out ≠ []) :
    tuples outs ≠ [] := by
  induction outs with
  | nil => exact List.cons_ne_nil _ _
  | cons out outs ih =>
    obtain ⟨hout, hne⟩ := List.forall_mem_cons.mp hne
    obtain ⟨tuple, htuple⟩ := List.exists_mem_of_ne_nil _ (ih hne)
    obtain ⟨e, he⟩ := List.exists_mem_of_ne_nil _ hout
    exact List.ne_nil_of_mem (List.mem_flatMap.mpr ⟨tuple, htuple, List.mem_map_of_mem he⟩)

omit [DecidableEq β] in
/-- An entry is part of a tuple whose key only tuples with this entry have. -/
theorem exists_key_of_mem {outs : List (List (Weighted β))} {e : Weighted β}
    (hne : ∀ out ∈ outs, out ≠ []) (hval : ∀ out ∈ outs, ∀ e ∈ out, e.value ≠ 0)
    (hnodup : ∀ out ∈ outs, (out.map (·.key)).Nodup) (hout : out ∈ outs) (he : e ∈ out) :
    ∃ bs, bs ∈ (tuples outs).map (·.key) ∧
      ∀ tuple ∈ tuples outs, tuple.key = bs → e.value ≤ tuple.value := by
  induction outs with
  | nil => cases hout
  | cons first outs ih =>
    obtain ⟨hfirst, hrest⟩ := List.forall_mem_cons.mp hne
    obtain ⟨hvalFirst, hvalRest⟩ := List.forall_mem_cons.mp hval
    obtain ⟨hnodupFirst, hnodupRest⟩ := List.forall_mem_cons.mp hnodup
    rcases List.mem_cons.mp hout with rfl | hout
    · obtain ⟨tuple, htuple⟩ := List.exists_mem_of_ne_nil _ (tuples_ne_nil hrest)
      refine ⟨e.key :: tuple.key, List.mem_map.mpr ⟨consTuple e tuple, ?_, rfl⟩, ?_⟩
      · exact List.mem_flatMap.mpr ⟨tuple, htuple, List.mem_map_of_mem he⟩
      · intro t ht hkey
        obtain ⟨tuple', htuple', ht⟩ := List.mem_flatMap.mp ht
        obtain ⟨e', he', rfl⟩ := List.mem_map.mp ht
        obtain rfl := List.inj_on_of_nodup_map hnodupFirst he' he (List.cons.inj hkey).1
        exact Nat.le_mul_of_pos_right _ (Nat.pos_of_ne_zero (value_tuples hvalRest tuple' htuple'))
    · obtain ⟨bs, hbs, hle⟩ := ih hrest hvalRest hnodupRest hout
      obtain ⟨tuple, htuple, rfl⟩ := List.mem_map.mp hbs
      obtain ⟨e₁, he₁⟩ := List.exists_mem_of_ne_nil _ hfirst
      refine ⟨e₁.key :: tuple.key, List.mem_map.mpr ⟨consTuple e₁ tuple, ?_, rfl⟩, ?_⟩
      · exact List.mem_flatMap.mpr ⟨tuple, htuple, List.mem_map_of_mem he₁⟩
      · intro t ht hkey
        obtain ⟨tuple', htuple', ht⟩ := List.mem_flatMap.mp ht
        obtain ⟨e', he', rfl⟩ := List.mem_map.mp ht
        have hpos := Nat.pos_of_ne_zero (hvalFirst e' he')
        exact (hle tuple' htuple' (List.cons.inj hkey).2).trans (Nat.le_mul_of_pos_left _ hpos)

end Compared

end Weighted
