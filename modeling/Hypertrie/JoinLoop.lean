import Hypertrie.HashDiagonal

/-! The loop of the hash joins. One diagonal is iterated; for each of its key
parts the other operands are probed, and the key part is delivered if the probe
succeeds. The two joins differ in the probe only. -/

namespace Hypertrie

open UnorderedMap

variable {M : Type → Type → Type} [UnorderedMap M] {K V : Type}
variable [DecidableEq K] [DecidableEq V] [Inhabited K]

/-- The iterator of a join. `smallest` is the front of the diagonals, `others` are behind it, and
`second` is the list of hypertries delivered with the key part. -/
structure JoinIterator (K V : Type) where
  smallest : HashDiagonal K V
  others : List (HashDiagonal K V)
  ended : Bool
  keyPart : Option K
  second : List (ConstHypertrie K V)

/-- What the body of the loop returns: whether the key part is delivered, the other diagonals and
the hypertries. -/
abbrev JoinProbe (K V : Type) :=
  K → HashDiagonal K V → List (HashDiagonal K V) → List (ConstHypertrie K V) →
    Option (Bool × List (HashDiagonal K V) × List (ConstHypertrie K V))

namespace JoinIterator

variable (t : HypertrieTrait K V) (ns : NodeStorage M K V) (probe : JoinProbe K V)

/-- The `while` loop of `next`, with at most so many increments. -/
def advance : Nat → JoinIterator K V → Option (JoinIterator K V)
  | 0, it => if it.smallest.ended then some { it with ended := true } else none
  | fuel + 1, it =>
    if it.smallest.ended then some { it with ended := true }
    else do
      let keyPart ← it.smallest.currentKeyPart
      let (found, others, second) ← probe keyPart it.smallest it.others it.second
      if found then
        some { it with keyPart := some keyPart, others := others, second := second }
      else do
        let smallest ← it.smallest.inc t ns
        advance fuel
          { it with keyPart := some keyPart, smallest := smallest, others := others,
                    second := second }

/-- `next` of a join that has been initialised. -/
def next (it : JoinIterator K V) : Option (JoinIterator K V) :=
  if it.smallest.ended then advance t ns probe it.smallest.remaining it
  else do
    let smallest ← it.smallest.inc t ns
    advance t ns probe smallest.remaining { it with smallest := smallest }

/-- All that is delivered, with at most so many increments. -/
def iterate : Nat → JoinIterator K V → Option (List (K × List (ConstHypertrie K V)))
  | 0, it => if it.ended then some [] else none
  | fuel + 1, it =>
    if it.ended then some []
    else do
      let keyPart ← it.keyPart
      let it' ← it.next t ns probe
      let rest ← iterate fuel it'
      some ((keyPart, it.second) :: rest)

/-- The first diagonal drives the join. -/
def items (ops : List (HashDiagonal K V)) (second : List (ConstHypertrie K V)) :
    Option (List (K × List (ConstHypertrie K V))) := do
  let smallest ← ops.head?
  let smallest ← smallest.begin t ns
  let it ← advance t ns probe smallest.remaining ⟨smallest, ops.tail, false, none, second⟩
  iterate t ns probe it.smallest.remaining it

end JoinIterator

/-- The diagonal yields these slices from its current one on. -/
inductive HashDiagonal.Yields (t : HypertrieTrait K V) (ns : NodeStorage M K V) :
    HashDiagonal K V → List (K × SliceResult K V) → Prop where
  | ended {d : HashDiagonal K V} (hend : d.ended = true) : Yields t ns d []
  | step {d d' : HashDiagonal K V} {item : K × SliceResult K V} {rest : List (K × SliceResult K V)}
      (hend : d.ended = false) (hkey : d.currentKeyPart = some item.1)
      (hvalue : d.currentValue = some item.2) (hinc : d.inc t ns = some d')
      (hrest : Yields t ns d' rest) : Yields t ns d (item :: rest)

section Spec

variable {t : HypertrieTrait K V} {F : Nat → Finset (SingleEntry K V) → Prop}
variable {ns : NodeStorage M K V} {depth : Nat} {S : Finset (SingleEntry K V)}
variable {mask : RawKeyPositions}

namespace HashDiagonal

variable {d d' : HashDiagonal K V}

theorem yields_of_iterate {fuel : Nat} {items : List (K × SliceResult K V)}
    (h : d.iterate t ns fuel = some items) : d.Yields t ns items := by
  induction fuel generalizing d items with
  | zero =>
    rw [iterate] at h
    split at h
    next hend =>
      rw [Option.some.injEq] at h
      rw [← h]
      exact .ended hend
    next => cases h
  | succ fuel ih =>
    rw [iterate] at h
    split at h
    next hend =>
      rw [Option.some.injEq] at h
      rw [← h]
      exact .ended hend
    next hend =>
      obtain ⟨keyPart, hkey, h⟩ := Option.bind_eq_some_iff.mp h
      obtain ⟨value, hvalue, h⟩ := Option.bind_eq_some_iff.mp h
      obtain ⟨d', hinc, h⟩ := Option.bind_eq_some_iff.mp h
      obtain ⟨rest, hrest, h⟩ := Option.bind_eq_some_iff.mp h
      rw [Option.some.injEq] at h
      rw [← h]
      exact .step (by simpa using hend) hkey hvalue hinc (ih hrest)

theorem length_forwardUntilResult {d d' : FullNodeDiagonal K V}
    {children : List (K × (V ⊕ RawIdentifier))}
    (h : d.forwardUntilResult t ns children = some d') : d'.iter.length ≤ children.length := by
  induction children generalizing d with
  | nil =>
    rw [FullNodeDiagonal.forwardUntilResult, Option.some.injEq] at h
    rw [← h]
  | cons child rest ih =>
    rw [FullNodeDiagonal.forwardUntilResult] at h
    split at h
    · obtain ⟨value, -, h⟩ := Option.bind_eq_some_iff.mp h
      split at h
      · rw [Option.some.injEq] at h
        rw [← h]
      · exact (ih h).trans (Nat.le_succ _)
    · rw [Option.some.injEq] at h
      rw [← h]

/-- Every increment uses up one of the remaining ones. -/
theorem remaining_inc (hend : d.ended = false) (h : d.inc t ns = some d') :
    d'.remaining < d.remaining := by
  cases d with
  | fullNode d =>
    obtain ⟨d₁, hf, rfl⟩ := Option.map_eq_some_iff.mp h
    have hlen := length_forwardUntilResult hf
    have hne : d.iter ≠ [] := by
      intro h0
      simp [ended, FullNodeDiagonal.ended, h0] at hend
    have hpos := List.length_pos_iff.mpr hne
    rw [List.length_tail] at hlen
    show d₁.iter.length < d.iter.length
    omega
  | singleEntryNode d =>
    rw [inc, Option.some.injEq] at h
    rw [← h]
    have hend : d.ended = false := hend
    simp [remaining, SingleEntryDiagonal.inc, hend]

theorem Yields.length_le {items : List (K × SliceResult K V)} (h : d.Yields t ns items) :
    items.length ≤ d.remaining := by
  induction h with
  | ended => exact Nat.zero_le _
  | step hend _ _ hinc _ ih =>
    have := remaining_inc hend hinc
    rw [List.length_cons]
    omega

theorem Over.resultDepth_eq (h : d.Over t F ns depth S mask) : d.resultDepth = depth - mask.count := by
  cases d with
  | fullNode d => exact FullNodeDiagonal.Over.resultDepth_eq h
  | singleEntryNode d => exact SingleEntryDiagonal.Over.resultDepth_eq h

theorem Over.inc (h : d.Over t F ns depth S mask) (hinc : d.inc t ns = some d') :
    d'.Over t F ns depth S mask :=
  h.reached (.inc .new hinc)

/-- A slice as a hypertrie of its own. -/
theorem Over.currentHypertrie_spec (hF : InPlay t F) (h : d.Over t F ns depth S mask)
    (hset : IsEntrySet t depth S) (hl : mask.length = depth) {value : SliceResult K V} {keyPart : K}
    (hv : d.currentValue = some value) (hd : 0 < depth - mask.count)
    (hholds : value.DiagonalHolds t F ns (depth - mask.count) (mask.diagonal S keyPart)) :
    Ensures (d.currentHypertrie t) (fun h => h.depth = depth - mask.count ∧
      h.Holds t F ns (mask.diagonal S keyPart)) := by
  have hsub := RawKeyPositions.isEntrySet_diagonal hset hl keyPart
  rw [currentHypertrie, hv, h.resultDepth_eq]
  simp only [Option.bind_eq_bind, Option.bind_some]
  cases value with
  | node nodec =>
    obtain ⟨-, rfl, hheld⟩ := hholds
    exact Ensures.pure ⟨rfl, ConstHypertrie.holds_ofNode hF hd hsub hheld⟩
  | singleEntry identifier entry =>
    obtain ⟨-, he, rfl⟩ := hholds
    rw [he] at hsub ⊢
    refine Ensures.pure ⟨rfl, ConstHypertrie.holds_own true hd hsub fun hp => ?_⟩
    rw [hp]
    rfl
  | value v =>
    obtain ⟨h0, -⟩ := hholds
    omega

end HashDiagonal

namespace JoinIterator

variable {probe : JoinProbe K V} {I : List (HashDiagonal K V) → List (ConstHypertrie K V) → Prop}
variable {found : K → Bool} {post : K → List (ConstHypertrie K V) → Prop}

/-- What a probe has to do at each key part of a diagonal over the set `S`: keep the invariant of
the other diagonals and the hypertries, find the key parts to be delivered, and then deliver them
with the right hypertries. -/
def ProbeSpec (t : HypertrieTrait K V) (F : Nat → Finset (SingleEntry K V) → Prop)
    (ns : NodeStorage M K V) (depth : Nat) (S : Finset (SingleEntry K V)) (mask : RawKeyPositions)
    (probe : JoinProbe K V) (I : List (HashDiagonal K V) → List (ConstHypertrie K V) → Prop)
    (found : K → Bool) (post : K → List (ConstHypertrie K V) → Prop) : Prop :=
  ∀ smallest others second value keyPart, smallest.Over t F ns depth S mask →
    smallest.currentValue = some value →
    value.DiagonalHolds t F ns (depth - mask.count) (mask.diagonal S keyPart) →
    (mask.diagonal S keyPart).Nonempty → I others second →
    Ensures (probe keyPart smallest others second) (fun res =>
      res.1 = found keyPart ∧ I res.2.1 res.2.2 ∧ (found keyPart = true → post keyPart res.2.2))

/-- What `smallest` still yields are slices of `S` that are not empty. -/
def SlicesOf (t : HypertrieTrait K V) (F : Nat → Finset (SingleEntry K V) → Prop)
    (ns : NodeStorage M K V) (depth : Nat) (S : Finset (SingleEntry K V)) (mask : RawKeyPositions)
    (items : List (K × SliceResult K V)) : Prop :=
  ∀ item ∈ items, item.2.DiagonalHolds t F ns (depth - mask.count) (mask.diagonal S item.1) ∧
    (mask.diagonal S item.1).Nonempty

/-- The state of a join: `smallest` still yields `items`, and unless the join has ended, the first
of them is delivered. -/
structure Delivers (t : HypertrieTrait K V) (F : Nat → Finset (SingleEntry K V) → Prop)
    (ns : NodeStorage M K V) (depth : Nat) (S : Finset (SingleEntry K V)) (mask : RawKeyPositions)
    (I : List (HashDiagonal K V) → List (ConstHypertrie K V) → Prop) (found : K → Bool)
    (post : K → List (ConstHypertrie K V) → Prop) (it : JoinIterator K V)
    (items : List (K × SliceResult K V)) : Prop where
  base : it.smallest.Over t F ns depth S mask
  yields : it.smallest.Yields t ns items
  slices : SlicesOf t F ns depth S mask items
  invariant : I it.others it.second
  ended : it.ended = true → items = []
  current : it.ended = false → ∃ item rest, items = item :: rest ∧ it.keyPart = some item.1 ∧
    found item.1 = true ∧ post item.1 it.second

theorem advance_spec (hp : ProbeSpec t F ns depth S mask probe I found post) {fuel : Nat}
    {it : JoinIterator K V} {items : List (K × SliceResult K V)}
    (ho : it.smallest.Over t F ns depth S mask) (hy : it.smallest.Yields t ns items)
    (hs : SlicesOf t F ns depth S mask items) (hi : I it.others it.second) (he : it.ended = false)
    (hfuel : items.length ≤ fuel) : Ensures (it.advance t ns probe fuel) (fun it' =>
      ∃ items', it'.Delivers t F ns depth S mask I found post items' ∧
        items'.length ≤ items.length ∧ (items'.map Prod.fst).filter (found ·) =
          (items.map Prod.fst).filter (found ·)) := by
  induction fuel generalizing it items with
  | zero =>
    obtain rfl : items = [] := List.length_eq_zero_iff.mp (Nat.le_zero.mp hfuel)
    cases hy with
    | ended hend =>
      rw [advance, if_pos hend]
      exact Ensures.pure ⟨[], ⟨ho, .ended hend, hs, hi, fun _ => rfl, fun h => by cases h⟩, le_rfl, rfl⟩
  | succ fuel ih =>
    cases hy with
    | ended hend =>
      rw [advance, if_pos hend]
      exact Ensures.pure ⟨[], ⟨ho, .ended hend, hs, hi, fun _ => rfl, fun h => by cases h⟩, le_rfl, rfl⟩
    | @step d d' item rest hend hkey hvalue hinc hrest =>
      have hitem := hs item List.mem_cons_self
      rw [advance, if_neg (by simp [hend]), hkey]
      simp only [Option.bind_eq_bind, Option.bind_some]
      refine Ensures.bind (hp it.smallest it.others it.second item.2 item.1 ho hvalue hitem.1
        hitem.2 hi) ?_
      rintro ⟨hit, others, second⟩ ⟨rfl, hi', hpost⟩
      by_cases hf : found item.1 = true
      · simp only [if_pos hf]
        refine Ensures.pure ⟨item :: rest, ⟨ho, .step hend hkey hvalue hinc hrest, hs, hi', ?_, ?_⟩,
          le_rfl, rfl⟩
        · intro h
          rw [he] at h
          cases h
        · exact fun _ => ⟨item, rest, rfl, rfl, hf, hpost hf⟩
      · simp only [if_neg hf, hinc, Option.bind_some]
        have hs' : SlicesOf t F ns depth S mask rest := fun i hm => hs i (List.mem_cons_of_mem _ hm)
        rw [List.length_cons] at hfuel
        refine (@ih ⟨d', others, it.ended, some item.1, second⟩ _ (ho.inc hinc) hrest hs' hi' he
          (by omega)).mono ?_
        rintro it' ⟨items', hdel, hlen, hfilter⟩
        refine ⟨items', hdel, hlen.trans (Nat.le_succ _), ?_⟩
        rw [hfilter, List.map_cons, List.filter_cons_of_neg hf]

theorem iterate_spec (hp : ProbeSpec t F ns depth S mask probe I found post) {fuel : Nat}
    {it : JoinIterator K V} {items : List (K × SliceResult K V)}
    (hd : it.Delivers t F ns depth S mask I found post items) (hfuel : items.length ≤ fuel) :
    Ensures (it.iterate t ns probe fuel) (fun out =>
      out.map Prod.fst = (items.map Prod.fst).filter (found ·) ∧
      ∀ item ∈ out, post item.1 item.2) := by
  induction fuel generalizing it items with
  | zero =>
    obtain rfl : items = [] := List.length_eq_zero_iff.mp (Nat.le_zero.mp hfuel)
    have hend : it.ended = true := by
      by_contra hne
      obtain ⟨item, rest, h, -⟩ := hd.current (by simpa using hne)
      cases h
    rw [iterate, if_pos hend]
    exact Ensures.pure ⟨rfl, by simp⟩
  | succ fuel ih =>
    cases hend : it.ended with
    | true =>
      rw [iterate, if_pos hend, hd.ended hend]
      exact Ensures.pure ⟨rfl, by simp⟩
    | false =>
      obtain ⟨item, rest, rfl, hkey, hf, hpost⟩ := hd.current hend
      obtain ⟨hbase, hyields, hslices, hinv, -, -⟩ := hd
      cases hyields with
      | @step d d' item rest hsend hskey hsvalue hinc hrest =>
        have hs' : SlicesOf t F ns depth S mask rest :=
          fun i hm => hslices i (List.mem_cons_of_mem _ hm)
        have hd' : HashDiagonal.Over t F ns depth S mask { it with smallest := d' }.smallest :=
          hbase.inc hinc
        have hadv := advance_spec hp hd' hrest hs' hinv hend hrest.length_le
        rw [iterate, if_neg (by simp [hend]), hkey, next, if_neg (by simp [hsend]), hinc]
        simp only [Option.bind_eq_bind, Option.bind_some]
        refine Ensures.bind hadv ?_
        rintro it' ⟨items', hd', hlen, hfilter⟩
        rw [List.length_cons] at hfuel
        refine Ensures.bind (ih hd' (by omega)) ?_
        rintro out ⟨hkeys, hall⟩
        refine Ensures.pure ⟨?_, fun i hm => ?_⟩
        · rw [List.map_cons, List.map_cons, List.filter_cons_of_pos hf, hkeys, hfilter]
        · rcases List.mem_cons.mp hm with rfl | hm
          · exact hpost
          · exact hall i hm

/-- A join delivers, once each, the key parts of its first diagonal that the probe finds. -/
theorem items_spec (hr : Readable t F ns) (hset : IsEntrySet t depth S) (hl : mask.length = depth)
    (hc : 0 < mask.count) (hp : ProbeSpec t F ns depth S mask probe I found post)
    {smallest : HashDiagonal K V} {others : List (HashDiagonal K V)}
    {second : List (ConstHypertrie K V)} (ho : smallest.Over t F ns depth S mask)
    (hi : I others second) : Ensures (items t ns probe (smallest :: others) second) (fun out =>
      (out.map Prod.fst).Nodup ∧
      (∀ k, k ∈ out.map Prod.fst ↔ k ∈ mask.diagonalKeys S ∧ found k = true) ∧
      ∀ item ∈ out, post item.1 item.2) := by
  obtain ⟨l, hl', hnodup, hkeys, hslices⟩ := ho.items_spec hr hset hl hc
  obtain ⟨d, hb, hiter⟩ := Option.bind_eq_some_iff.mp hl'
  have hyields := HashDiagonal.yields_of_iterate hiter
  have hs : SlicesOf t F ns depth S mask l := by
    intro item hm
    refine ⟨hslices item hm, ?_⟩
    exact (RawKeyPositions.mem_diagonalKeys hset hl hc).mp
      ((hkeys item.1).mp (List.mem_map_of_mem hm))
  have hd : HashDiagonal.Over t F ns depth S mask
      (JoinIterator.mk d others false none second).smallest := ho.reached (.begin .new hb)
  have hadv := advance_spec hp hd hyields hs hi rfl hyields.length_le
  simp only [items, List.head?_cons, List.tail_cons, Option.bind_eq_bind, Option.bind_some, hb]
  refine Ensures.bind hadv ?_
  rintro it ⟨items', hd, -, hfilter⟩
  refine (iterate_spec hp hd hd.yields.length_le).mono ?_
  rintro out ⟨hout, hpost⟩
  rw [hfilter] at hout
  refine ⟨hout ▸ hnodup.filter _, fun k => ?_, hpost⟩
  rw [hout, List.mem_filter, hkeys]

end JoinIterator

end Spec

end Hypertrie
