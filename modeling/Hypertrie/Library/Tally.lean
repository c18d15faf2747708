import Mathlib

/-! Lists of keys with multiplicities. Such a list tallies a set under a function
if the multiplicities of each key sum up to the number of members with that key. -/

structure Weighted (β : Type) where
  key : β
  value : ℕ
  deriving DecidableEq, Repr

namespace Weighted

variable {α β γ δ : Type} [DecidableEq β] [DecidableEq γ]

def mapKey (h : β → γ) (e : Weighted β) : Weighted γ := ⟨h e.key, e.value⟩

/-- The sum of the values at a key. -/
def weight (out : List (Weighted β)) (b : β) : ℕ := ((out.filter (·.key = b)).map (·.value)).sum

@[simp]
theorem weight_nil (b : β) : weight [] b = 0 := rfl

theorem weight_cons (e : Weighted β) (out : List (Weighted β)) (b : β) :
    weight (e :: out) b = (if e.key = b then e.value else 0) + weight out b := by
  by_cases h : e.key = b <;> simp [weight, h]

theorem weight_append (out out' : List (Weighted β)) (b : β) :
    weight (out ++ out') b = weight out b + weight out' b := by
  simp [weight]

theorem weight_of_nodup {out : List (Weighted β)} (hn : (out.map (·.key)).Nodup) {e : Weighted β}
    (he : e ∈ out) : weight out e.key = e.value := by
  induction out with
  | nil => cases he
  | cons e' out ih =>
    rw [List.map_cons, List.nodup_cons] at hn
    rw [weight_cons]
    rcases List.mem_cons.mp he with rfl | he
    · have hnone : out.filter (fun e' => e'.key = e.key) = [] :=
        List.filter_eq_nil_iff.mpr fun e' he' => by
          simp only [decide_eq_true_eq]
          exact fun h => hn.1 (h ▸ List.mem_map_of_mem he')
      simp [weight, hnone]
    · have hne : e'.key ≠ e.key := fun h => hn.1 (h ▸ List.mem_map_of_mem he)
      rw [if_neg hne, ih hn.2 he, zero_add]

theorem weight_of_not_mem {out : List (Weighted β)} {b : β} (h : b ∉ out.map (·.key)) :
    weight out b = 0 := by
  have hnone : out.filter (·.key = b) = [] := by
    refine List.filter_eq_nil_iff.mpr fun e he hk => h ?_
    exact of_decide_eq_true hk ▸ List.mem_map_of_mem he
  rw [weight, hnone]
  rfl

theorem weight_ne_zero_iff {out : List (Weighted β)} {b : β} :
    weight out b ≠ 0 ↔ ∃ e ∈ out, e.key = b ∧ e.value ≠ 0 := by
  rw [weight, Ne, List.sum_eq_zero_iff]
  simp [and_assoc]

theorem weight_ne_zero {out : List (Weighted β)} (h : ∀ e ∈ out, e.value ≠ 0) {b : β} :
    weight out b ≠ 0 ↔ b ∈ out.map (·.key) := by
  rw [weight_ne_zero_iff, List.mem_map]
  exact exists_congr fun e => and_congr_right fun he => and_iff_left (h e he)

theorem sum_weight (out : List (Weighted β)) (T : Finset β) :
    ∑ b ∈ T, weight out b = ((out.filter (·.key ∈ T)).map (·.value)).sum := by
  induction out with
  | nil => simp
  | cons e out ih =>
    simp only [weight_cons, Finset.sum_add_distrib, ih, Finset.sum_ite_eq]
    by_cases he : e.key ∈ T <;> simp [he]

omit [DecidableEq β] in
theorem weight_map_mapKey (h : β → γ) (out : List (Weighted β)) (c : γ) :
    weight (out.map (mapKey h)) c = ((out.filter (fun e => h e.key = c)).map (·.value)).sum := by
  induction out with
  | nil => simp
  | cons e out ih =>
    rw [List.map_cons, weight_cons, ih, mapKey]
    by_cases he : h e.key = c <;> simp [he]

/-- All pairs of an entry of each list. -/
def pairs (out : List (Weighted β)) (out' : List (Weighted γ)) : List (Weighted (β × γ)) :=
  out'.flatMap fun e' => out.map fun e => ⟨(e.key, e'.key), e.value * e'.value⟩

theorem weight_pairs (out : List (Weighted β)) (out' : List (Weighted γ)) (b : β) (c : γ) :
    weight (pairs out out') (b, c) = weight out b * weight out' c := by
  have hrow (e' : Weighted γ) : weight (out.map fun e => (⟨(e.key, e'.key), e.value * e'.value⟩ :
      Weighted (β × γ))) (b, c) = weight out b * (if e'.key = c then e'.value else 0) := by
    induction out with
    | nil => simp
    | cons e out ih =>
      rw [List.map_cons, weight_cons, ih, weight_cons, add_mul]
      by_cases hb : e'.key = c <;> simp [hb]
  induction out' with
  | nil => simp [pairs]
  | cons e' out' ih =>
    rw [pairs] at ih ⊢
    rw [List.flatMap_cons, weight_append, hrow, ih, weight_cons, mul_add]

omit [DecidableEq β] [DecidableEq γ] in
theorem mem_keys_pairs {out : List (Weighted β)} {out' : List (Weighted γ)} {b : β} {c : γ} :
    (b, c) ∈ (pairs out out').map (·.key) ↔ b ∈ out.map (·.key) ∧ c ∈ out'.map (·.key) := by
  simp only [pairs, List.mem_map, List.mem_flatMap]
  constructor
  · rintro ⟨_, ⟨e', he', e, he, rfl⟩, hkey⟩
    obtain ⟨rfl, rfl⟩ := Prod.mk_inj.mp hkey
    exact ⟨⟨e, he, rfl⟩, e', he', rfl⟩
  · rintro ⟨⟨e, he, rfl⟩, e', he', rfl⟩
    exact ⟨_, ⟨e', he', e, he, rfl⟩, rfl⟩

def consTuple (e : Weighted β) (tuple : Weighted (List β)) : Weighted (List β) :=
  ⟨e.key :: tuple.key, e.value * tuple.value⟩

/-- All choices of an entry from each list; the first list varies fastest. -/
def tuples : List (List (Weighted β)) → List (Weighted (List β))
  | [] => [⟨[], 1⟩]
  | out :: outs => (tuples outs).flatMap fun tuple => out.map (consTuple · tuple)

/-- A tuple of entries as one entry. -/
def ofTuple (tuple : List (Weighted β)) : Weighted (List β) :=
  ⟨tuple.map Weighted.key, (tuple.map Weighted.value).prod⟩

omit [DecidableEq β] in
theorem value_ofTuple_cons (e : Weighted β) (tuple : List (Weighted β)) :
    (ofTuple (e :: tuple)).value = e.value * (ofTuple tuple).value :=
  List.prod_cons

omit [DecidableEq β] in
theorem tuples_eq_map_sections (outs : List (List (Weighted β))) :
    tuples outs = outs.sections.map ofTuple := by
  induction outs with
  | nil => rfl
  | cons out outs ih =>
    rw [tuples, List.sections, ih, List.flatMap_map, List.map_flatMap]
    simp only [List.map_map]
    rfl

omit [DecidableEq β] in
theorem tuples_cons (out : List (Weighted β)) (outs : List (List (Weighted β))) :
    tuples (out :: outs) = (pairs out (tuples outs)).map (mapKey fun p => p.1 :: p.2) := by
  rw [pairs, List.map_flatMap, tuples]
  simp only [List.map_map]
  rfl

/-- The list counts how often `f` takes each value on `A`. -/
def Tallies (out : List (Weighted β)) (A : Set α) (f : α → β) : Prop :=
  ∀ b, (weight out b : ℕ∞) = {a ∈ A | f a = b}.encard

namespace Tallies

variable {out out' : List (Weighted β)} {A B : Set α} {f g : α → β}

theorem nil (f : α → β) : Tallies [] ∅ f := by
  intro b
  simp

theorem congr (h : Tallies out A f) (hfg : ∀ a ∈ A, f a = g a) : Tallies out A g := by
  intro b
  rw [h b]
  congr 1
  ext a
  exact and_congr_right fun ha => by rw [hfg a ha]

theorem of_weight_eq (h : Tallies out A f) (hw : ∀ b, weight out' b = weight out b) :
    Tallies out' A f := by
  intro b
  rw [hw b, h b]

theorem append (h : Tallies out A f) (h' : Tallies out' B f) (hd : Disjoint A B) :
    Tallies (out ++ out') (A ∪ B) f := by
  intro b
  have hsplit : {a ∈ A ∪ B | f a = b} = {a ∈ A | f a = b} ∪ {a ∈ B | f a = b} := by
    ext a
    exact or_and_right
  rw [weight_append, Nat.cast_add, h b, h' b, hsplit, Set.encard_union_eq]
  exact hd.mono (fun _ ha => ha.1) (fun _ ha => ha.1)

theorem single {b : β} {n : ℕ} (hn : (n : ℕ∞) = A.encard) (hf : ∀ a ∈ A, f a = b) :
    Tallies [⟨b, n⟩] A f := by
  intro b'
  by_cases hb : b = b'
  · have hall : {a ∈ A | f a = b'} = A := Set.sep_eq_self_iff_mem_true.mpr fun a ha => (hf a ha).trans hb
    simp [weight, hb, hall, hn]
  · have hnone : {a ∈ A | f a = b'} = ∅ := by
      ext a
      simp only [Set.mem_sep_iff, Set.mem_empty_iff_false, iff_false, not_and]
      intro ha he
      exact hb ((hf a ha).symm.trans he)
    simp [weight, hb, hnone]

/-- A list with one key for each member. -/
theorem of_list {l : List α} (hn : l.Nodup) (f : α → β) :
    Tallies (l.map fun a => ⟨f a, 1⟩) {a | a ∈ l} f := by
  induction l with
  | nil =>
    have : {a : α | a ∈ []} = ∅ := by simp
    rw [this]
    exact nil f
  | cons a l ih =>
    obtain ⟨ha, hn⟩ := List.nodup_cons.mp hn
    have hset : {a' | a' ∈ a :: l} = {a} ∪ {a' | a' ∈ l} := by
      ext a'
      simp
    rw [hset]
    have hsingle : Tallies [⟨f a, 1⟩] {a} f := by
      refine single (by simp) ?_
      rintro a' rfl
      rfl
    exact hsingle.append (ih hn) (by simpa using ha)

theorem image {h : δ → α} {B : Set δ} (hi : Set.InjOn h B) :
    Tallies out (h '' B) f ↔ Tallies out B (f ∘ h) := by
  have hfib (b : β) : {a ∈ h '' B | f a = b}.encard = {c ∈ B | (f ∘ h) c = b}.encard := by
    have heq : {a ∈ h '' B | f a = b} = h '' {c ∈ B | (f ∘ h) c = b} := by
      ext a
      constructor
      · rintro ⟨⟨c, hc, rfl⟩, hf⟩
        exact ⟨c, ⟨hc, hf⟩, rfl⟩
      · rintro ⟨c, ⟨hc, hf⟩, rfl⟩
        exact ⟨⟨c, hc, rfl⟩, hf⟩
    rw [heq, (hi.mono fun _ hc => hc.1).encard_image]
  simp only [Tallies, hfib]

/-- What the values of some of the keys sum up to. -/
theorem encard_filter (h : Tallies out A f) (P : β → Prop) [DecidablePred P] :
    {a ∈ A | P (f a)}.encard = (((out.filter (fun e => P e.key)).map (·.value)).sum : ℕ) := by
  let T := ((out.map (·.key)).toFinset).filter P
  have hunion : {a ∈ A | P (f a)} = ⋃ b ∈ (T : Set β), {a ∈ A | f a = b} := by
    ext a
    simp only [Set.mem_sep_iff, Set.mem_iUnion, exists_prop]
    constructor
    · rintro ⟨ha, hp⟩
      refine ⟨f a, ?_, ha, rfl⟩
      have hpos : {a' ∈ A | f a' = f a}.encard ≠ 0 := Set.encard_ne_zero.mpr ⟨a, ha, rfl⟩
      have hkey : f a ∈ out.map (·.key) := by
        by_contra hnot
        apply hpos
        rw [← h (f a), weight, List.filter_eq_nil_iff.mpr]
        · rfl
        · intro e he
          simp only [decide_eq_true_eq]
          rintro hk
          exact hnot (List.mem_map.mpr ⟨e, he, hk⟩)
      exact Finset.mem_coe.mpr (Finset.mem_filter.mpr ⟨List.mem_toFinset.mpr hkey, hp⟩)
    · rintro ⟨b, hb, ha, rfl⟩
      exact ⟨ha, (Finset.mem_filter.mp (Finset.mem_coe.mp hb)).2⟩
  have hdisj : (T : Set β).PairwiseDisjoint fun b => {a ∈ A | f a = b} := by
    intro b _ b' _ hne
    refine Set.disjoint_left.mpr fun a ha ha' => hne ?_
    exact ha.2.symm.trans ha'.2
  rw [hunion, T.finite_toSet.encard_biUnion hdisj, finsum_mem_coe_finset]
  rw [← Finset.sum_congr rfl fun b _ => h b, ← Nat.cast_sum, sum_weight]
  congr 3
  apply List.filter_congr
  intro e he
  have : e.key ∈ out.map (·.key) := List.mem_map_of_mem he
  simp only [T, Finset.mem_filter, List.mem_toFinset, this, true_and]

theorem encard_eq (h : Tallies out A f) : A.encard = ((out.map (·.value)).sum : ℕ) := by
  have := h.encard_filter fun _ => True
  simpa using this

theorem mapKey (h : Tallies out A f) (g : β → γ) :
    Tallies (out.map (Weighted.mapKey g)) A (g ∘ f) := by
  intro c
  rw [weight_map_mapKey, ← h.encard_filter (fun b => g b = c)]
  rfl

theorem pairs {A' : Set δ} {out' : List (Weighted γ)} {g : δ → γ} (h : Tallies out A f)
    (h' : Tallies out' A' g) : Tallies (pairs out out') (A ×ˢ A') (Prod.map f g) := by
  rintro ⟨b, c⟩
  have hprod : {p ∈ A ×ˢ A' | Prod.map f g p = (b, c)} =
      {a ∈ A | f a = b} ×ˢ {a ∈ A' | g a = c} := by
    ext ⟨a, a'⟩
    have hkey : Prod.map f g (a, a') = (b, c) ↔ f a = b ∧ g a' = c := Prod.mk_inj
    exact (and_congr_right fun _ => hkey).trans and_and_and_comm
  rw [weight_pairs, Nat.cast_mul, h b, h' c, hprod, Set.encard_prod]

end Tallies

/-- The keys of the list are the values of `f` on `A`. -/
def Covers (out : List (Weighted β)) (A : Set α) (f : α → β) : Prop :=
  ∀ b, b ∈ out.map (·.key) ↔ ∃ a ∈ A, f a = b

namespace Covers

omit [DecidableEq β] [DecidableEq γ]

variable {out out' : List (Weighted β)} {A B : Set α} {f g : α → β}

theorem nil (f : α → β) : Covers [] ∅ f := by
  intro b
  simp

theorem congr (h : Covers out A f) (hfg : ∀ a ∈ A, f a = g a) : Covers out A g := by
  intro b
  rw [h b]
  constructor
  · rintro ⟨a, ha, rfl⟩
    exact ⟨a, ha, (hfg a ha).symm⟩
  · rintro ⟨a, ha, rfl⟩
    exact ⟨a, ha, hfg a ha⟩

theorem append (h : Covers out A f) (h' : Covers out' B f) : Covers (out ++ out') (A ∪ B) f := by
  intro b
  rw [List.map_append, List.mem_append, h b, h' b]
  constructor
  · rintro (⟨a, ha, rfl⟩ | ⟨a, ha, rfl⟩)
    · exact ⟨a, .inl ha, rfl⟩
    · exact ⟨a, .inr ha, rfl⟩
  · rintro ⟨a, ha | ha, rfl⟩
    · exact .inl ⟨a, ha, rfl⟩
    · exact .inr ⟨a, ha, rfl⟩

theorem image {h : δ → α} {B : Set δ} : Covers out (h '' B) f ↔ Covers out B (f ∘ h) := by
  simp only [Covers, Set.exists_mem_image, Function.comp_apply]

theorem mapKey (h : Covers out A f) (g : β → γ) : Covers (out.map (Weighted.mapKey g)) A (g ∘ f) := by
  intro c
  have hkeys : (out.map (Weighted.mapKey g)).map (·.key) = (out.map (·.key)).map g := by
    simp [Weighted.mapKey]
  rw [hkeys, List.mem_map]
  constructor
  · rintro ⟨b, hb, rfl⟩
    obtain ⟨a, ha, rfl⟩ := (h b).mp hb
    exact ⟨a, ha, rfl⟩
  · rintro ⟨a, ha, rfl⟩
    exact ⟨f a, (h _).mpr ⟨a, ha, rfl⟩, rfl⟩

theorem pairs {A' : Set δ} {out' : List (Weighted γ)} {g : δ → γ} (h : Covers out A f)
    (h' : Covers out' A' g) : Covers (pairs out out') (A ×ˢ A') (Prod.map f g) := by
  rintro ⟨b, c⟩
  rw [mem_keys_pairs, h b, h' c]
  constructor
  · rintro ⟨⟨a, ha, rfl⟩, a', ha', rfl⟩
    exact ⟨(a, a'), ⟨ha, ha'⟩, rfl⟩
  · rintro ⟨⟨a, a'⟩, ⟨ha, ha'⟩, hkey⟩
    obtain ⟨rfl, rfl⟩ := Prod.mk_inj.mp hkey
    exact ⟨⟨a, ha, rfl⟩, a', ha', rfl⟩

end Covers

/-- The list has the right keys; if it counts, it has no zero values and tallies as well. -/
structure Lists (counting : Bool) (out : List (Weighted β)) (A : Set α) (f : α → β) : Prop where
  covers : Covers out A f
  tallies : counting = true → Tallies out A f
  value : counting = true → ∀ e ∈ out, e.value ≠ 0

namespace Lists

variable {counting : Bool} {out out' : List (Weighted β)} {A B : Set α} {f g : α → β}

theorem nil (f : α → β) : Lists counting [] ∅ f :=
  ⟨.nil f, fun _ => .nil f, by simp⟩

theorem of_list {l : List α} (hn : l.Nodup) (f : α → β) :
    Lists counting (l.map fun a => ⟨f a, 1⟩) {a | a ∈ l} f := by
  refine ⟨fun b => ?_, fun _ => .of_list hn f, fun _ e he => ?_⟩
  · rw [List.map_map, List.mem_map]
    exact Iff.rfl
  · obtain ⟨a, -, rfl⟩ := List.mem_map.mp he
    exact Nat.one_ne_zero

theorem congr (h : Lists counting out A f) (hfg : ∀ a ∈ A, f a = g a) : Lists counting out A g :=
  ⟨h.covers.congr hfg, fun hc => (h.tallies hc).congr hfg, h.value⟩

theorem append (h : Lists counting out A f) (h' : Lists counting out' B f) (hd : Disjoint A B) :
    Lists counting (out ++ out') (A ∪ B) f := by
  refine ⟨h.covers.append h'.covers, fun hc => (h.tallies hc).append (h'.tallies hc) hd, ?_⟩
  intro hc e he
  rcases List.mem_append.mp he with he | he
  · exact h.value hc e he
  · exact h'.value hc e he

theorem image {h : δ → α} {B : Set δ} (hi : Set.InjOn h B) :
    Lists counting out (h '' B) f ↔ Lists counting out B (f ∘ h) := by
  constructor
  · rintro ⟨hcov, htal, hval⟩
    exact ⟨Covers.image.mp hcov, fun hc => (Tallies.image hi).mp (htal hc), hval⟩
  · rintro ⟨hcov, htal, hval⟩
    exact ⟨Covers.image.mpr hcov, fun hc => (Tallies.image hi).mpr (htal hc), hval⟩

theorem ne_nil_iff (h : Lists counting out A f) : out ≠ [] ↔ A.Nonempty := by
  constructor
  · intro hne
    obtain ⟨e, he⟩ := List.exists_mem_of_ne_nil out hne
    obtain ⟨a, ha, -⟩ := (h.covers e.key).mp (List.mem_map_of_mem he)
    exact ⟨a, ha⟩
  · rintro ⟨a, ha⟩ rfl
    exact List.not_mem_nil ((h.covers (f a)).mpr ⟨a, ha, rfl⟩)

/-- Another list with the same keys, and with the same sums of values if it counts. -/
theorem of_weight_eq (h : Lists counting out A f) (hk : ∀ b, b ∈ out'.map (·.key) ↔ b ∈ out.map (·.key))
    (hw : counting = true → ∀ b, weight out' b = weight out b)
    (hv : counting = true → ∀ e ∈ out', e.value ≠ 0) : Lists counting out' A f :=
  ⟨fun b => (hk b).trans (h.covers b), fun hc => (h.tallies hc).of_weight_eq (hw hc), hv⟩

theorem mapKey (h : Lists counting out A f) (g : β → γ) :
    Lists counting (out.map (Weighted.mapKey g)) A (g ∘ f) := by
  refine ⟨h.covers.mapKey g, fun hc => (h.tallies hc).mapKey g, fun hc e he => ?_⟩
  obtain ⟨e', he', rfl⟩ := List.mem_map.mp he
  exact h.value hc e' he'

/-- A list with the keys mapped, entry by entry. -/
theorem of_forall₂ {out' : List (Weighted γ)} {g : β → γ} (h : Lists counting out A f)
    (hr : List.Forall₂ (fun e e' => e'.key = g e.key ∧ (counting = true → e'.value = e.value)) out out') :
    Lists counting out' A (g ∘ f) := by
  have hkeys : out'.map (·.key) = (out.map (Weighted.mapKey g)).map (·.key) := by
    clear h
    induction hr with
    | nil => rfl
    | cons he _ ih => exact congrArg₂ List.cons he.1 ih
  have heq (hc : counting = true) : out' = out.map (Weighted.mapKey g) := by
    clear h hkeys
    induction hr with
    | nil => rfl
    | @cons e e' _ _ he _ ih =>
      have hhead : e' = Weighted.mapKey g e := by
        cases e'
        exact congrArg₂ Weighted.mk he.1 (he.2 hc)
      exact congrArg₂ List.cons hhead ih
  refine (h.mapKey g).of_weight_eq (fun b => by rw [hkeys]) (fun hc b => by rw [heq hc]) ?_
  intro hc e he
  rw [heq hc] at he
  exact (h.mapKey g).value hc e he

theorem pairs {A' : Set δ} {out' : List (Weighted γ)} {g : δ → γ} (h : Lists counting out A f)
    (h' : Lists counting out' A' g) :
    Lists counting (pairs out out') (A ×ˢ A') (Prod.map f g) := by
  refine ⟨h.covers.pairs h'.covers, fun hc => (h.tallies hc).pairs (h'.tallies hc), fun hc e he => ?_⟩
  obtain ⟨e₂, he₂, hm⟩ := List.mem_flatMap.mp he
  obtain ⟨e₁, he₁, rfl⟩ := List.mem_map.mp hm
  exact mul_ne_zero (h.value hc e₁ he₁) (h'.value hc e₂ he₂)

end Lists

/-- The number says whether the set is empty; if it counts, it is the number of members. -/
structure Counts (counting : Bool) (n : ℕ) (A : Set α) : Prop where
  ne_zero_iff : n ≠ 0 ↔ A.Nonempty
  encard : counting = true → (n : ℕ∞) = A.encard

namespace Counts

variable {counting : Bool} {n m : ℕ} {A B : Set α} {f : α → β}

theorem zero : Counts counting 0 (∅ : Set α) := ⟨by simp, by simp⟩

theorem union (h : Counts counting n A) (h' : Counts counting m B) (hd : Disjoint A B) :
    Counts counting (n + m) (A ∪ B) := by
  refine ⟨?_, fun hc => ?_⟩
  · rw [Set.union_nonempty, ← h.ne_zero_iff, ← h'.ne_zero_iff]
    omega
  · rw [Set.encard_union_eq hd, ← h.encard hc, ← h'.encard hc, Nat.cast_add]

theorem prod {A' : Set δ} (h : Counts counting n A) (h' : Counts counting m A') :
    Counts counting (n * m) (A ×ˢ A') := by
  refine ⟨?_, fun hc => ?_⟩
  · rw [Set.prod_nonempty_iff, ← h.ne_zero_iff, ← h'.ne_zero_iff, Nat.mul_ne_zero_iff]
  · rw [Set.encard_prod, ← h.encard hc, ← h'.encard hc, Nat.cast_mul]

theorem image {h : δ → α} {B : Set δ} (hi : Set.InjOn h B) :
    Counts counting n (h '' B) ↔ Counts counting n B := by
  constructor
  · rintro ⟨hne, hcard⟩
    exact ⟨hne.trans Set.image_nonempty, fun hc => (hcard hc).trans hi.encard_image⟩
  · rintro ⟨hne, hcard⟩
    exact ⟨hne.trans Set.image_nonempty.symm, fun hc => (hcard hc).trans hi.encard_image.symm⟩

/-- A number as a list with at most one key. -/
theorem lists (h : Counts counting n A) {b : β} (hf : ∀ a ∈ A, f a = b) :
    Lists counting (if n ≠ 0 then [⟨b, n⟩] else []) A f := by
  by_cases hn : n ≠ 0
  · obtain ⟨a, ha⟩ := h.ne_zero_iff.mp hn
    rw [if_pos hn]
    refine ⟨fun b' => ?_, fun hc => .single (h.encard hc) hf, fun _ e he => ?_⟩
    · rw [List.map_singleton, List.mem_singleton]
      constructor
      · rintro rfl
        exact ⟨a, ha, hf a ha⟩
      · rintro ⟨a', ha', rfl⟩
        exact hf a' ha'
    · rw [List.mem_singleton.mp he]
      exact hn
  · have hempty : A = ∅ := Set.not_nonempty_iff_eq_empty.mp fun hA => hn (h.ne_zero_iff.mpr hA)
    rw [if_neg hn, hempty]
    exact .nil f

end Counts

/-- Without repetition, there is only one entry if there is only one key. -/
theorem Lists.eq_singleton {out : List (Weighted β)} {A : Set α} {f : α → β} (h : Lists true out A f)
    (hn : (out.map (·.key)).Nodup) (hne : out ≠ []) {b : β} (hf : ∀ a ∈ A, f a = b) :
    ∃ m, out = [⟨b, m⟩] ∧ Counts true m A := by
  have hkey (e) (he : e ∈ out) : e.key = b := by
    obtain ⟨a, ha, hread⟩ := (h.covers e.key).mp (List.mem_map_of_mem he)
    exact hread.symm.trans (hf a ha)
  obtain ⟨e, rest, rfl⟩ := List.exists_cons_of_ne_nil hne
  have hrest : rest = [] := by
    refine List.eq_nil_iff_forall_not_mem.mpr fun e' he' => ?_
    have hsame := (hkey e' (List.mem_cons_of_mem _ he')).trans (hkey e List.mem_cons_self).symm
    exact (List.nodup_cons.mp hn).1 (List.mem_map.mpr ⟨e', he', hsame⟩)
  subst hrest
  have hcard := (h.tallies rfl).encard_eq
  rw [List.map_singleton, List.sum_singleton] at hcard
  refine ⟨e.value, ?_, ?_, fun _ => hcard.symm⟩
  · rw [← hkey e List.mem_cons_self]
  · exact iff_of_true (h.value rfl e List.mem_cons_self) (h.ne_nil_iff.mp hne)

end Weighted
