import Hypertrie.EinsumSpec

/-! Einsum with the value type `bool`. Values of the shared entry are written by some
operators only, so an entry may be yielded with the value of a failed sub-problem. -/

namespace Hypertrie

open UnorderedMap Weighted LabelledOperand

variable {M : Type → Type → Type} [UnorderedMap M] {K V : Type}
variable [DecidableEq V]

/-- A sub-problem that is not evaluated through others with the shared entry. -/
inductive Leaf where
  /-- A single result without a solution. -/
  | failed
  /-- Entries are yielded with the value true. -/
  | found
  /-- Entries are yielded with the value that the shared entry has. -/
  | kept
  deriving DecidableEq

namespace Leaf

/-- No value of a failed sub-problem is kept. -/
def Fits (leaf next : Leaf) : Prop := leaf = failed → next ≠ kept

instance (leaf next : Leaf) : Decidable (Fits leaf next) := inferInstanceAs (Decidable (_ → _))

/-- The leaf that leaves the value. -/
def ofValue (value : Nat) : Leaf := if value = 1 then found else failed

/-- The entries that are yielded and the value that is left, from the value before. -/
inductive Yields : Leaf → Nat → List (Entry K) → Nat → Prop where
  | failed {value : Nat} : Yields .failed value [] 0
  | found {value : Nat} {out : List (Entry K)} (hne : out ≠ []) (hone : ∀ e ∈ out, e.value = 1) :
      Yields .found value out 1
  | kept {value : Nat} {out : List (Entry K)} (hne : out ≠ []) (hkept : ∀ e ∈ out, e.value = value) :
      Yields .kept value out value

/-- The same for leaves one after the other. -/
inductive Run : List Leaf → Nat → List (Entry K) → Nat → Prop where
  | nil {value : Nat} : Run [] value [] value
  | cons {leaf : Leaf} {leaves : List Leaf} {value mid last : Nat} {out rest : List (Entry K)}
      (hhead : Yields leaf value out mid) (htail : Run leaves mid rest last) :
      Run (leaf :: leaves) value (out ++ rest) last

variable {leaf : Leaf} {leaves leaves' : List Leaf} {value mid last : Nat} {out rest : List (Entry K)}

theorem Run.single (h : Yields leaf value out last) : Run [leaf] value out last := by
  have := Run.cons h .nil
  rwa [List.append_nil] at this

theorem Run.append (h : Run leaves value out mid) (h' : Run leaves' mid rest last) :
    Run (leaves ++ leaves') value (out ++ rest) last := by
  induction h with
  | nil => exact h'
  | cons hhead _ ih =>
    rw [List.append_assoc]
    exact .cons hhead (ih h')

theorem Yields.value_le (h : Yields leaf value out last) (hv : value ≤ 1) :
    last ≤ 1 ∧ ∀ e ∈ out, e.value ≤ 1 := by
  cases h with
  | failed => exact ⟨Nat.zero_le _, by simp⟩
  | found _ hone => exact ⟨le_rfl, fun e he => (hone e he).le⟩
  | kept _ hkept => exact ⟨hv, fun e he => (hkept e he).trans_le hv⟩

theorem Run.value_le (h : Run leaves value out last) (hv : value ≤ 1) :
    last ≤ 1 ∧ ∀ e ∈ out, e.value ≤ 1 := by
  induction h with
  | nil => exact ⟨hv, by simp⟩
  | cons hhead _ ih =>
    obtain ⟨hmid, hout⟩ := hhead.value_le hv
    obtain ⟨hlast, hrest⟩ := ih hmid
    exact ⟨hlast, fun e he => (List.mem_append.mp he).elim (hout e) (hrest e)⟩

theorem isChain_kept (h : leaf ≠ failed) : (leaf :: leaves).IsChain Fits ↔ leaves.IsChain Fits := by
  cases leaves with
  | nil => simp
  | cons next leaves =>
    rw [List.isChain_cons_cons]
    exact and_iff_right fun hf => absurd hf h

theorem isChain_next (h : leaf ≠ kept) :
    (ofValue value :: leaf :: leaves).IsChain Fits ↔ (leaf :: leaves).IsChain Fits := by
  rw [List.isChain_cons_cons]
  exact and_iff_right fun _ => h

/-- All values are true if no value of a failed sub-problem is kept. -/
theorem Run.all_one_iff (h : Run leaves value out last) :
    (∀ e ∈ out, e.value = 1) ↔ (ofValue value :: leaves).IsChain Fits := by
  induction h with
  | nil => simp
  | @cons leaf leaves value mid last out rest hhead htail ih =>
    rw [List.forall_mem_append, ih]
    cases hhead with
    | failed =>
      rw [isChain_next (by decide)]
      simp [ofValue]
    | found _ hone =>
      rw [isChain_next (by decide)]
      exact and_iff_right hone
    | kept hne hkept =>
      by_cases hv : value = 1
      · have hall : ∀ e ∈ out, e.value = 1 := fun e he => (hkept e he).trans hv
        have hfound : ofValue value ≠ failed := by simp [ofValue, hv]
        rw [and_iff_right hall, isChain_kept hfound, isChain_kept hfound, isChain_kept (by decide)]
      · have hfailed : ofValue value = failed := if_neg hv
        obtain ⟨e, he⟩ := List.exists_mem_of_ne_nil _ hne
        refine iff_of_false (fun h => hv ((hkept e he).symm.trans (h.1 e he))) fun h => ?_
        exact (List.isChain_cons_cons.mp h).1 hfailed rfl

end Leaf

section Last

/-- The value after entries have been yielded, from the value before. -/
def lastValue (out : List (Entry K)) (value : Nat) : Nat := out.foldl (fun _ e => e.value) value

theorem lastValue_append (out rest : List (Entry K)) (value : Nat) :
    lastValue (out ++ rest) value = lastValue rest (lastValue out value) := List.foldl_append

theorem lastValue_of_all {out : List (Entry K)} {value last : Nat} (h : ∀ e ∈ out, e.value = last)
    (hne : out ≠ [] ∨ value = last) : lastValue out value = last := by
  induction out generalizing value with
  | nil => simpa [lastValue] using hne
  | cons e out ih =>
    rw [List.forall_mem_cons] at h
    exact ih h.2 (.inr h.1)

variable {mul : Nat → Nat → Nat} {boolValued setsValue : Bool} {body : Nat → Entry K → Entry K}
variable {updateEntryKey : List Nat → List K → List K → List K} {e e' : Entry K}
variable {out : List (Entry K)} {poss : List Nat}

theorem FullCartesianResult.lastValue_loop {fuel : Nat} {r : FullCartesianResult K}
    (h : r.loop mul boolValued updateEntryKey body fuel e = some (out, e')) :
    e'.value = lastValue out e.value := by
  induction fuel generalizing r e out with
  | zero => cases h
  | succ fuel ih =>
    rw [loop] at h
    by_cases hended : r.ended = true
    · rw [if_pos hended] at h
      cases h
      rfl
    · rw [if_neg hended] at h
      obtain ⟨⟨r', key⟩, -, h⟩ := Option.bind_eq_some_iff.mp h
      obtain ⟨⟨rest, last⟩, hrest, h⟩ := Option.bind_eq_some_iff.mp h
      cases h
      have hlast := ih hrest
      exact hlast

theorem FullCartesianResult.lastValue_forEach {r : FullCartesianResult K}
    (h : r.forEach mul boolValued updateEntryKey body e = some (out, e')) :
    e'.value = lastValue out e.value := by
  obtain ⟨⟨r', key⟩, -, h⟩ := Option.bind_eq_some_iff.mp h
  have hlast := lastValue_loop h
  exact hlast

theorem CartesianOperator.lastValue_iterate {calculated : FullCartesianResult K}
    {iteratedOut : List (Entry K)}
    (h : iterate boolValued setsValue poss calculated iteratedOut e = some (out, e')) :
    e'.value = lastValue out e.value := by
  induction iteratedOut generalizing e out with
  | nil =>
    cases h
    rfl
  | cons iterated iteratedOut ih =>
    obtain ⟨⟨out, mid⟩, hout, h⟩ := Option.bind_eq_some_iff.mp h
    obtain ⟨⟨rest, last⟩, hrest, h⟩ := Option.bind_eq_some_iff.mp h
    cases h
    rw [lastValue_append, ← FullCartesianResult.lastValue_forEach hout]
    exact ih hrest

end Last

variable [DecidableEq K] [Inhabited K]

section Single

variable {t : HypertrieTrait K V} {ns : NodeStorage M K V} {c : EinsumChoices K V}
variable {sub : SubOperator K V} {sc : Subscript} {operands : List (ConstHypertrie K V)} {e e' : Entry K}

/-- Single results are at most 1, like a `bool`. -/
def SubOperator.SingleLeOne (sub : SubOperator K V) : Prop :=
  ∀ sc operands e e', e.value ≤ 1 → sub.singleResult sc operands e = some e' → e'.value ≤ 1

omit [DecidableEq K] [DecidableEq V] [Inhabited K] in
theorem JoinOperator.singleLoop_le_one (hs : sub.SingleLeOne)
    {items : List (K × List (ConstHypertrie K V))} (he : e.value ≤ 1)
    (h : singleLoop true sub sc items 0 e = some e') : e'.value ≤ 1 := by
  induction items generalizing e with
  | nil =>
    cases h
    exact Nat.zero_le 1
  | cons item items ih =>
    obtain ⟨mid, hmid, h⟩ := Option.bind_eq_some_iff.mp h
    have hle := hs _ _ _ _ he hmid
    by_cases hv : mid.value ≠ 0
    · rw [if_pos hv] at h
      cases h
      exact hle
    · rw [if_neg hv] at h
      exact ih hle h

omit [DecidableEq V] in
theorem CartesianOperator.singleResult_le_one (hs : sub.SingleLeOne)
    (h : singleResult (M := M) c true sub sc operands e = some e') : e'.value ≤ 1 := by
  obtain ⟨⟨components, iteratedPos⟩, -, h⟩ := Option.bind_eq_some_iff.mp h
  obtain ⟨iterated, -, h⟩ := Option.bind_eq_some_iff.mp h
  obtain ⟨subResults, -, h⟩ := Option.bind_eq_some_iff.mp h
  cases subResults with
  | none =>
    cases h
    exact Nat.zero_le 1
  | some subResults =>
    obtain ⟨single, hsingle, h⟩ := Option.bind_eq_some_iff.mp h
    cases h
    have hle := hs _ _ _ _ le_rfl hsingle
    exact hle

theorem singleLeOne_getSubOperator (n : Nat) :
    (getSubOperator (M := M) t ns c true n).SingleLeOne := by
  induction n with
  | zero => intro sc operands e e' _ h; cases h
  | succ n ih =>
    intro sc operands e e' he h
    obtain ⟨type, -, h⟩ := Option.bind_eq_some_iff.mp h
    cases type with
    | join =>
      obtain ⟨items, -, h⟩ := Option.bind_eq_some_iff.mp h
      exact JoinOperator.singleLoop_le_one (e := clearUsedEntryPoss e sc) ih he h
    | resolve =>
      cases h
      exact he
    | count =>
      cases h
      exact le_rfl
    | cartesian => exact CartesianOperator.singleResult_le_one ih h
    | entryGenerator =>
      cases h
      exact le_rfl

end Single

section Leaves

variable (t : HypertrieTrait K V) (ns : NodeStorage M K V) (c : EinsumChoices K V)

/-- Whether the component that is iterated has no result label. -/
def iteratedDone (operands : List (LabelledOperand K V)) (result : List Label) : Bool :=
  ((CartesianOperator.extractSuboperands c (subscriptOf operands result)
    (operands.map (·.hypertrie))).bind fun p => p.1[p.2]?).any fun comp => comp.2.subscript.allResultDone

open Classical in
/-- The leaves of the evaluation of a problem with fewer labels than the fuel, in their order. -/
noncomputable def leaves : Nat → List (LabelledOperand K V) → List Label → List Leaf
  | 0, _, _ => []
  | fuel + 1, operands, result =>
    if (subscriptOf operands result).allResultDone then
      [if (solutions operands).Nonempty then .found else .failed]
    else
      match (subscriptOf operands result).type c.sets with
      | some .join =>
        let label := c.minCardLabel (operands.map (·.hypertrie)) (subscriptOf operands result)
        ((HashJoin.items t ns c.std ⟨operands.map (·.hypertrie),
          (subscriptOf operands result).labelPossInOperands label⟩).getD []).flatMap fun item =>
            leaves fuel (afterJoins label item.1 operands item.2) result
      | some .cartesian =>
        if (solutions operands).Nonempty then [if iteratedDone c operands result then .found else .kept]
        else []
      | some .resolve => [.found]
      | _ => []

end Leaves

section Spec

variable {t : HypertrieTrait K V} {F : Nat → Finset (SingleEntry K V) → Prop}
variable {ns : NodeStorage M K V} {c : EinsumChoices K V} {n : Nat} {sub : SubOperator K V}
variable {operands : List (LabelledOperand K V)} {result : List Label} {e : Entry K} {label : Label}

/-- The generator yields along the leaves. -/
def FollowsLeaves (t : HypertrieTrait K V) (ns : NodeStorage M K V) (c : EinsumChoices K V) (n : Nat)
    (operands : List (LabelledOperand K V)) (result : List Label) (e : Entry K)
    (res : List (Entry K) × Entry K) : Prop :=
  Leaf.Run (leaves t ns c n operands result) e.value res.1 res.2.value

theorem leaves_of_done (t : HypertrieTrait K V) (ns : NodeStorage M K V) (c : EinsumChoices K V) (n : Nat)
    (hd : (subscriptOf operands result).allResultDone = true) :
    ((solutions operands).Nonempty ∧ leaves t ns c (n + 1) operands result = [.found]) ∨
    (¬ (solutions operands).Nonempty ∧ leaves t ns c (n + 1) operands result = [.failed]) := by
  by_cases hne : (solutions operands).Nonempty
  · refine .inl ⟨hne, ?_⟩
    rw [leaves, if_pos hd, if_pos hne]
  · refine .inr ⟨hne, ?_⟩
    rw [leaves, if_pos hd, if_neg hne]

/-- A single result is one leaf. -/
theorem followsLeaves_single (hs : sub.Right t F ns true (n + 1)) (hle : sub.SingleLeOne)
    (hp : Problem t F ns operands result) (hn : (labelSet operands).card < n + 1)
    (hl : e.key.length = result.length) (hv : e.value ≤ 1)
    (hd : (subscriptOf operands result).allResultDone = true) :
    Ensures (sub.entries (subscriptOf operands result) (operands.map (·.hypertrie)) e)
      (FollowsLeaves t ns c (n + 1) operands result e) := by
  rw [SubOperator.entries, if_pos hd]
  obtain ⟨e', he', hkey, hcount⟩ := hs.singleResult operands result e hp hn hl hd
  have hle := hle _ _ _ _ hv he'
  rw [he']
  refine Ensures.pure ?_
  show Leaf.Run _ e.value (if e'.value ≠ 0 then [e'] else []) e'.value
  rcases leaves_of_done t ns c n hd with ⟨hne, hleaves⟩ | ⟨hne, hleaves⟩
  · have hone : e'.value = 1 := Nat.le_antisymm hle (Nat.one_le_iff_ne_zero.mpr (hcount.ne_zero_iff.mpr hne))
    rw [hleaves, if_pos (hcount.ne_zero_iff.mpr hne), hone]
    refine .single (.found (List.cons_ne_nil _ _) ?_)
    simpa using hone
  · have hzero : e'.value = 0 := by
      by_contra h
      exact hne (hcount.ne_zero_iff.mp h)
    rw [hleaves, if_neg (not_not_intro hzero), hzero]
    exact .single .failed

/-- The generator follows the leaves for problems with fewer labels than `n`. -/
def SubOperator.Follows (t : HypertrieTrait K V) (F : Nat → Finset (SingleEntry K V) → Prop)
    (ns : NodeStorage M K V) (c : EinsumChoices K V) (n : Nat) (sub : SubOperator K V) : Prop :=
  ∀ (operands : List (LabelledOperand K V)) (result : List Label) (e : Entry K),
    Problem t F ns operands result → (labelSet operands).card < n → e.key.length = result.length →
    e.value ≤ 1 → (subscriptOf operands result).allResultDone = false →
    Ensures (sub.generator (subscriptOf operands result) (operands.map (·.hypertrie)) e)
      (FollowsLeaves t ns c n operands result e)

theorem SubOperator.Follows.entries (hf : sub.Follows t F ns c n) (hs : sub.Right t F ns true n)
    (hle : sub.SingleLeOne) (hp : Problem t F ns operands result) (hn : (labelSet operands).card < n)
    (hl : e.key.length = result.length) (hv : e.value ≤ 1) :
    Ensures (sub.entries (subscriptOf operands result) (operands.map (·.hypertrie)) e)
      (FollowsLeaves t ns c n operands result e) := by
  cases n with
  | zero => exact absurd hn (Nat.not_lt_zero _)
  | succ n =>
    by_cases hd : (subscriptOf operands result).allResultDone = true
    · exact followsLeaves_single hs hle hp hn hl hv hd
    · rw [SubOperator.entries, if_neg hd]
      exact hf operands result e hp hn hl hv (by simpa using hd)

omit [DecidableEq K] [DecidableEq V] [Inhabited K] in
theorem ResolveOperator.generatorLoop_values (sc : Subscript) (entries : List (SingleEntry K V))
    (e : Entry K) :
    (∀ e' ∈ (generatorLoop sc entries e).1, e'.value = 1) ∧
      (generatorLoop sc entries e).1.length = entries.length ∧
      (generatorLoop sc entries e).2.value = lastValue (generatorLoop sc entries e).1 e.value := by
  induction entries generalizing e with
  | nil => simp [generatorLoop, lastValue]
  | cons entry entries ih =>
    obtain ⟨hall, hlen, hlast⟩ :=
      ih ((e.setKey (writeKey (operand2resultMapping sc) e.key entry.key)).setValue 1)
    exact ⟨List.forall_mem_cons.mpr ⟨rfl, hall⟩, congrArg (· + 1) hlen, hlast⟩

theorem ResolveOperator.generator_follows {o : LabelledOperand K V} (hr : Readable t F ns)
    (hp : Problem t F ns [o] result) (hd : (subscriptOf [o] result).allResultDone = false)
    (htype : (subscriptOf [o] result).type c.sets = some .resolve) :
    Ensures (generator t ns (subscriptOf [o] result) [o.hypertrie] e)
      (FollowsLeaves t ns c (n + 1) [o] result e) := by
  have hv := hp.valid o List.mem_cons_self
  have hdepth : 0 < o.hypertrie.depth := hv.held.depth_pos
  have hleaves : leaves t ns c (n + 1) [o] result = [.found] := by
    rw [leaves, if_neg (by simp [hd])]
    simp only [htype]
  rw [generator]
  simp only [List.head?_cons, Option.bind_eq_bind, Option.bind_some]
  refine Ensures.bind (ConstHypertrie.entries_spec hr hv.holds hdepth) fun entries hentries => ?_
  obtain ⟨hall, hlen, hlast⟩ := generatorLoop_values (subscriptOf [o] result) entries
    (clearUsedEntryPoss e (subscriptOf [o] result))
  obtain ⟨entry, hentry⟩ := hv.nonempty
  have hne : (generatorLoop (subscriptOf [o] result) entries
      (clearUsedEntryPoss e (subscriptOf [o] result))).1 ≠ [] := by
    rw [← List.length_pos_iff, hlen]
    exact List.length_pos_of_mem ((hentries.2 entry).mpr hentry)
  refine Ensures.pure ?_
  rw [FollowsLeaves, hleaves, hlast, lastValue_of_all hall (.inl hne)]
  exact .single (.found hne hall)

theorem JoinOperator.generatorLoop_follows (hf : sub.Follows t F ns c n) (hs : sub.Right t F ns true n)
    (hle : sub.SingleLeOne) (hp : Problem t F ns operands result)
    (hn : (labelSet operands).card < n + 1) (hlabel : label ∈ labelSet operands)
    {items : List (K × List (ConstHypertrie K V))}
    (hitems : ∀ item ∈ items, JoinItem t F ns operands label item)
    (hl : e.key.length = result.length) (hv : e.value ≤ 1) :
    Ensures (generatorLoop sub (subscriptOf operands result) label items e) (fun res =>
      Leaf.Run (items.flatMap fun item => leaves t ns c n (afterJoins label item.1 operands item.2) result)
        e.value res.1 res.2.value) := by
  induction items generalizing e with
  | nil => exact Ensures.pure .nil
  | cons item items ih =>
    obtain ⟨keyPart, subOperands⟩ := item
    have hi := hitems _ List.mem_cons_self
    obtain ⟨hproblem, hsc, hhyp, hset, -, -⟩ := hi.problem hp hlabel
    obtain ⟨hl', hagree, -⟩ := setLabel_spec (e := e) hp hlabel hl keyPart
    have hv' : (setLabel e (subscriptOf operands result) label keyPart).value ≤ 1 := by
      rw [setLabel]
      split <;> exact hv
    have hcard : (labelSet (afterJoins label keyPart operands subOperands)).card < n := by
      have := Finset.card_erase_lt_of_mem hlabel
      rw [hset]
      omega
    have hkey := hs.entries hproblem hcard hl'
    have hvalue := hf.entries hs hle hproblem hcard hl' hv'
    rw [hsc, hhyp] at hkey hvalue
    rw [generatorLoop]
    refine Ensures.bind (hkey.and hvalue) ?_
    rintro ⟨out, e'⟩ ⟨⟨hagree', -⟩, hrun⟩
    rw [hset] at hagree'
    have hlength : e'.key.length = result.length :=
      (hagree'.length.trans hagree.length).trans hl
    refine Ensures.bind (ih (fun item hm => hitems item (List.mem_cons_of_mem _ hm)) hlength
      (hrun.value_le hv').1) ?_
    rintro ⟨rest, e''⟩ hrest
    rw [List.flatMap_cons]
    have hvalue : (setLabel e (subscriptOf operands result) label keyPart).value = e.value := by
      rw [setLabel]
      split <;> rfl
    rw [FollowsLeaves, hvalue] at hrun
    exact Ensures.pure (hrun.append hrest)

theorem JoinOperator.generator_follows (hr : Readable t F ns) (hf : sub.Follows t F ns c n)
    (hs : sub.Right t F ns true n) (hle : sub.SingleLeOne) (hp : Problem t F ns operands result)
    (hn : (labelSet operands).card < n + 1) (hne : (labelSet operands).Nonempty)
    (hl : e.key.length = result.length) (hv : e.value ≤ 1)
    (hd : (subscriptOf operands result).allResultDone = false)
    (htype : (subscriptOf operands result).type c.sets = some .join) :
    Ensures (generator t ns c sub (subscriptOf operands result) (operands.map (·.hypertrie)) e)
      (FollowsLeaves t ns c (n + 1) operands result e) := by
  have hlabel := c.minCardLabel_mem (operands.map (·.hypertrie)) (subscriptOf operands result) hne
  have hclear := agree_clearUsedEntryPoss e operands result
  obtain ⟨items, heq, -, -, hitems⟩ := items_spec c.std hr hp hlabel
  have hleaves : leaves t ns c (n + 1) operands result = items.flatMap fun item => leaves t ns c n
      (afterJoins (c.minCardLabel (operands.map (·.hypertrie)) (subscriptOf operands result)) item.1
        operands item.2) result := by
    rw [leaves, if_neg (by simp [hd])]
    simp only [htype, heq, Option.getD_some]
  rw [generator]
  simp only [heq, Option.bind_eq_bind, Option.bind_some]
  refine (generatorLoop_follows hf hs hle hp hn hlabel hitems (hclear.length.trans hl) hv).mono ?_
  intro res hrun
  rw [FollowsLeaves, hleaves]
  exact hrun

theorem exists_left_of_forall₂ {α β : Type} {R : α → β → Prop} {l : List α} {l' : List β}
    (h : List.Forall₂ R l l') : ∀ b ∈ l', ∃ a ∈ l, R a b := by
  induction h with
  | nil => simp
  | @cons a b l l' hab _ ih =>
    refine List.forall_mem_cons.mpr ⟨⟨a, List.mem_cons_self, hab⟩, fun b hb => ?_⟩
    obtain ⟨a, ha, hab⟩ := ih b hb
    exact ⟨a, List.mem_cons_of_mem _ ha, hab⟩

omit [DecidableEq K] [Inhabited K] in
/-- The values of the products: 1 if they are set, and the one before if not. -/
theorem CartesianOperator.iterate_values {setsValue : Bool} (poss : List Nat) {value : Nat}
    {outs : List (List (Entry K))} {mapping : List (List Nat)} {iteratedOut : List (Entry K)}
    (hne : ∀ out ∈ outs, out ≠ []) (hl : mapping.length = outs.length)
    (hone : setsValue = true → ∀ iterated ∈ iteratedOut, iterated.value = 1)
    (he : setsValue = false → e.value = value) :
    Ensures (iterate true setsValue poss (.new outs mapping) iteratedOut e) (fun res =>
      ∀ entry ∈ res.1, entry.value = if setsValue then 1 else value) := by
  induction iteratedOut generalizing e with
  | nil => exact Ensures.pure (by simp)
  | cons iterated iteratedOut ih =>
    let Q (e : Entry K) : Prop := setsValue = false → e.value = value
    have hwrite (e : Entry K) (tuple : List (List K)) (hQ : Q e) :
        Q (e.setKey (FullCartesianResult.writeTuple writeKey mapping tuple e.key)) := hQ
    have hbody (precalculated : Nat) (e : Entry K) (hQ : Q e) :
        Q (productBody setsValue poss iterated precalculated e) := by
      intro hb
      subst hb
      exact hQ rfl
    rw [iterate]
    have hval : FullCartesianResult.ValuesOk true outs := fun hb => by cases hb
    refine Ensures.bind (FullCartesianResult.forEach_spec (r := .new outs mapping) hwrite hbody hne hl
      hval he) ?_
    rintro ⟨out, e'⟩ ⟨hQ, hout⟩
    refine Ensures.bind (ih (fun hb it hm => hone hb it (List.mem_cons_of_mem _ hm)) hQ) ?_
    rintro ⟨rest, e''⟩ hrest
    refine Ensures.pure (List.forall_mem_append.mpr ⟨fun entry hm => ?_, hrest⟩)
    obtain ⟨tuple, -, e, hQ, rfl⟩ := exists_left_of_forall₂ hout entry hm
    cases setsValue with
    | true => exact (Nat.mul_one _).trans (hone rfl iterated List.mem_cons_self)
    | false => exact hQ rfl

omit [DecidableEq K] [DecidableEq V] [Inhabited K] in
/-- A component without result labels has at most one entry, with the value true. -/
theorem SubOperator.SingleLeOne.entries_eq_one (hle : sub.SingleLeOne) {sc : Subscript}
    {operands : List (ConstHypertrie K V)} {out : List (Entry K)} {e' : Entry K}
    (hd : sc.allResultDone = true) (hv : e.value ≤ 1) (h : sub.entries sc operands e = some (out, e')) :
    ∀ entry ∈ out, entry.value = 1 := by
  rw [SubOperator.entries, if_pos hd] at h
  obtain ⟨e', he', heq⟩ := Option.map_eq_some_iff.mp h
  cases heq
  intro entry hm
  by_cases hne : e'.value ≠ 0
  · rw [if_pos hne, List.mem_singleton] at hm
    rw [hm]
    exact Nat.le_antisymm (hle _ _ _ _ hv he') (Nat.one_le_iff_ne_zero.mpr hne)
  · rw [if_neg hne] at hm
    cases hm

theorem CartesianOperator.generator_follows {cs : List (Finset Label)} (hs : sub.Right t F ns true n)
    (hle : sub.SingleLeOne) (hp : Problem t F ns operands result)
    (hn : (labelSet operands).card < n + 1) (hl : e.key.length = result.length)
    (hd : (subscriptOf operands result).allResultDone = false)
    (htype : (subscriptOf operands result).type c.sets = some .cartesian)
    (hcs : (subscriptOf operands result).connectedComponents c.sets = some cs) (hlen : 1 < cs.length) :
    Ensures (generator (M := M) c true sub (subscriptOf operands result) (operands.map (·.hypertrie)) e)
      (FollowsLeaves t ns c (n + 1) operands result e) := by
  obtain ⟨components, i, labels, ds, hc, hperm, hextract, hiterated, hothers, -, ⟨hm, hcard⟩, hds⟩ :=
    extractSuboperands_spec (c := c) hp.length hn hcs hlen
  obtain ⟨⟨out, e'⟩, heq, -, hlists⟩ := generator_spec (M := M) (c := c) hs hp hn hl hcs hlen
  have hdone : iteratedDone c operands result =
      (componentOf operands result labels).2.subscript.allResultDone := by
    rw [iteratedDone, hextract, Option.bind_some, hiterated, Option.any_some]
  have hvalues : (∀ entry ∈ out, entry.value = if iteratedDone c operands result then 1 else e.value) ∧
      e'.value = lastValue out e.value := by
    obtain ⟨subResults, hresults, hsub⟩ := getSubResults_spec (M := M) hs hp hc hds
    obtain ⟨⟨iteratedOut, _⟩, hentries, -⟩ := component_entries hs (hp.componentOf labels) hc hm hcard
    rw [generator] at heq
    simp only [hextract, hiterated, hothers, hresults, Option.bind_eq_bind, Option.bind_some] at heq
    cases subResults with
    | none =>
      cases heq
      exact ⟨by simp, rfl⟩
    | some outs =>
      have hlength : ((ds.map (componentOf operands result)).map
          (fun comp => comp.2.originalResultPoss)).length = outs.length := by
        rw [List.length_map, List.length_map]
        exact hsub.length_eq
      have hiterate : iterate true (iteratedDone c operands result) (resultPoss labels result)
          (.new outs ((ds.map (componentOf operands result)).map fun comp => comp.2.originalResultPoss))
          iteratedOut (clearUsedEntryPoss e (subscriptOf operands result)) = some (out, e') := by
        rw [hdone]
        simp only [products, hentries, Option.bind_eq_bind, Option.bind_some,
          originalResultPoss_componentOf hp.nodup] at heq
        exact heq
      have hone (hb : iteratedDone c operands result = true) :
          ∀ iterated ∈ iteratedOut, iterated.value = 1 :=
        hle.entries_eq_one (hdone.symm.trans hb) le_rfl hentries
      have hkept (_ : iteratedDone c operands result = false) :
          (clearUsedEntryPoss e (subscriptOf operands result)).value = e.value := rfl
      obtain ⟨res, hres, hall⟩ := iterate_values (resultPoss labels result)
        (ne_nil_precalculated hsub) hlength hone hkept
      obtain rfl := Option.some.inj (hiterate.symm.trans hres)
      have hlast := lastValue_iterate hiterate
      exact ⟨hall, hlast⟩
  refine ⟨(out, e'), heq, ?_⟩
  have hne : out ≠ [] ↔ (solutions operands).Nonempty := hlists.ne_nil_iff
  rw [FollowsLeaves, leaves, if_neg (by simp [hd])]
  simp only [htype]
  by_cases hsol : (solutions operands).Nonempty
  · have hout := hne.mpr hsol
    rw [if_pos hsol, hvalues.2, lastValue_of_all hvalues.1 (.inl hout)]
    cases hdone : iteratedDone c operands result with
    | true =>
      rw [hdone] at hvalues
      exact .single (.found hout hvalues.1)
    | false =>
      rw [hdone] at hvalues
      exact .single (.kept hout hvalues.1)
  · have hout : out = [] := by
      by_contra h
      exact hsol (hne.mp h)
    subst hout
    rw [if_neg hsol, hvalues.2]
    exact .nil

theorem getSubOperator_follows (hr : Readable t F ns) (c : EinsumChoices K V) (n : Nat) :
    (getSubOperator (M := M) t ns c true n).Follows t F ns c n := by
  induction n with
  | zero => exact fun _ _ _ _ hn => absurd hn (Nat.not_lt_zero _)
  | succ n ih =>
    intro operands result e hp hn hl hv hd
    have hright := getSubOperator_right (M := M) hr c true n
    have hle : (getSubOperator (M := M) t ns c true n).SingleLeOne := singleLeOne_getSubOperator n
    have hnot : ¬ ∀ l ∈ result, l ∉ labelSet operands := fun h =>
      Bool.false_ne_true (hd.symm.trans (done_iff.mpr h))
    obtain ⟨type, htype, hscheduled⟩ := type_spec c.sets operands result
    show Ensures (((subscriptOf operands result).type c.sets).bind _) _
    rw [htype]
    cases hscheduled with
    | join hne =>
      exact JoinOperator.generator_follows hr ih hright hle hp hn (labelSet_nonempty hp hne) hl hv hd htype
    | cartesian hcs hlen =>
      exact CartesianOperator.generator_follows hright hle hp hn hl hd htype hcs hlen
    | resolve hnodup hsub => exact ResolveOperator.generator_follows hr hp hd htype
    | @count o hnodup hno =>
      refine absurd (fun l hl hm => ?_) hnot
      rw [labelSet_singleton] at hm
      exact hno l (List.mem_toFinset.mp hm) hl
    | entryGenerator => exact absurd (fun l _ => Finset.notMem_empty l) hnot

end Spec

section Filter

omit [DecidableEq K] [Inhabited K]

variable {hash : Entry K → BitVec 64} {found : List (BitVec 64)} {out : List (Entry K)} {e : Entry K}

/-- Without collisions, the filter drops what is yielded again. -/
theorem mem_distinctEntries (h : ∀ e ∈ out, ∀ e' ∈ out, hash e = hash e' → e = e') :
    e ∈ distinctEntries hash found out ↔ e ∈ out ∧ hash e ∉ found := by
  induction out generalizing found with
  | nil => simp [distinctEntries]
  | cons e' out ih =>
    have ih {found} := @ih found fun a ha b hb =>
      h a (List.mem_cons_of_mem _ ha) b (List.mem_cons_of_mem _ hb)
    rw [distinctEntries]
    by_cases hf : hash e' ∈ found
    · rw [if_pos hf, ih, List.mem_cons]
      constructor
      · exact fun ⟨hm, hn⟩ => ⟨.inr hm, hn⟩
      · rintro ⟨rfl | hm, hn⟩
        · exact absurd hf hn
        · exact ⟨hm, hn⟩
    · rw [if_neg hf, List.mem_cons, List.mem_cons, ih, List.mem_cons, not_or]
      constructor
      · rintro (rfl | ⟨hm, -, hn⟩)
        · exact ⟨.inl rfl, hf⟩
        · exact ⟨.inr hm, hn⟩
      · rintro ⟨rfl | hm, hn⟩
        · exact .inl rfl
        · by_cases he : hash e = hash e'
          · exact .inl (h e (List.mem_cons_of_mem _ hm) e' List.mem_cons_self he)
          · exact .inr ⟨hm, he, hn⟩

theorem nodup_distinctEntries (h : ∀ e ∈ out, ∀ e' ∈ out, hash e = hash e' → e = e') :
    (distinctEntries hash found out).Nodup := by
  induction out generalizing found with
  | nil => exact List.nodup_nil
  | cons e out ih =>
    have hrest (a) (ha : a ∈ out) (b) (hb : b ∈ out) :=
      h a (List.mem_cons_of_mem _ ha) b (List.mem_cons_of_mem _ hb)
    rw [distinctEntries]
    split
    · exact ih hrest
    · refine List.nodup_cons.mpr ⟨fun hm => ?_, ih hrest⟩
      exact ((mem_distinctEntries hrest).mp hm).2 List.mem_cons_self

end Filter

section Einsum

variable {t : HypertrieTrait K V} {F : Nat → Finset (SingleEntry K V) → Prop}
variable {ns : NodeStorage M K V} {roots : Multiset (Root K V)} {c : EinsumChoices K V}
variable {operands : List (LabelledOperand K V)} {result : List Label}
variable {hash : Entry K → BitVec 64} {out : List (Entry K)}

/-- Each projection of a solution is yielded once, with the value true. -/
structure DistinctResult (operands : List (LabelledOperand K V)) (result : List Label)
    (out : List (Entry K)) : Prop where
  nodup : (out.map (·.key)).Nodup
  keys : ∀ key, key ∈ out.map (·.key) ↔ ∃ σ ∈ solutions operands, result.map σ = key
  value : ∀ e ∈ out, e.value = 1

/-- Different entries that may be yielded have different hashes. -/
def NoHashCollision (hash : Entry K → BitVec 64) (operands : List (LabelledOperand K V))
    (result : List Label) : Prop :=
  Set.InjOn hash {e | (∃ σ ∈ solutions operands, result.map σ = e.key) ∧ e.value ≤ 1}

omit [DecidableEq V] in
/-- What is yielded without the filter. -/
theorem distinctResult_iff (hhash : NoHashCollision hash operands result)
    (hlists : Lists false out (solutions operands) (result.map ·)) (hle : ∀ e ∈ out, e.value ≤ 1) :
    DistinctResult operands result (distinctEntries hash [] out) ↔ ∀ e ∈ out, e.value = 1 := by
  have hkey (e) (he : e ∈ out) : ∃ σ ∈ solutions operands, result.map σ = e.key :=
    (hlists.covers e.key).mp (List.mem_map_of_mem he)
  have hinj (e) (he : e ∈ out) (e') (he' : e' ∈ out) (h : hash e = hash e') : e = e' :=
    hhash ⟨hkey e he, hle e he⟩ ⟨hkey e' he', hle e' he'⟩ h
  have hmem (e : Entry K) : e ∈ distinctEntries hash [] out ↔ e ∈ out :=
    (mem_distinctEntries hinj).trans (and_iff_left List.not_mem_nil)
  constructor
  · exact fun h e he => h.value e ((hmem e).mpr he)
  · intro h
    refine ⟨?_, fun key => ?_, fun e he => h e ((hmem e).mp he)⟩
    · refine List.Nodup.map_on (fun e he e' he' hk => ?_) (nodup_distinctEntries hinj)
      have hv := (h e ((hmem e).mp he)).trans (h e' ((hmem e').mp he')).symm
      cases e
      cases e'
      cases hk
      cases hv
      rfl
    · have hkeys : key ∈ (distinctEntries hash [] out).map (·.key) ↔ key ∈ out.map (·.key) := by
        simp only [List.mem_map, hmem]
      exact hkeys.trans (hlists.covers key)

/-- Without a result label that is left, there is one leaf. -/
theorem einsum_bool_done (hr : Readable t F ns) (hp : Problem t F ns operands result)
    (hresult : ∀ l ∈ result, l ∈ labelSet operands)
    (hd : (subscriptOf operands result).allResultDone = true) :
    Ensures (einsum (M := M) t ns c true hash (subscriptOf operands result)
      (operands.map (·.hypertrie))) (DistinctResult operands result) := by
  have hright := getSubOperator_right (M := M) hr c true ((labelSet operands).card + 1)
  have hle : (getSubOperator (M := M) t ns c true ((labelSet operands).card + 1)).SingleLeOne :=
    singleLeOne_getSubOperator _
  have hnil : result = [] := List.eq_nil_iff_forall_not_mem.mpr fun l hm =>
    done_iff.mp hd l hm (hresult l hm)
  subst hnil
  have hn : (labelSet operands).card < (labelSet operands).card + 1 := Nat.lt_succ_self _
  rw [einsum, if_pos hd]
  obtain ⟨e, he, hkey, hcount⟩ := hright.singleResult operands [] ⟨[], 1⟩ hp hn rfl hd
  have hkeyNil : e.key.length = ([] : List Label).length := congrArg List.length hkey
  obtain ⟨e', he', hkey', hcount'⟩ := hright.singleResult operands [] e hp hn hkeyNil hd
  have hle' := hle _ _ _ _ (hle _ _ _ _ le_rfl he) he'
  refine Ensures.bind ⟨e, he, rfl⟩ ?_
  rintro _ rfl
  by_cases hne : (solutions operands).Nonempty
  · have hone : e'.value = 1 :=
      Nat.le_antisymm hle' (Nat.one_le_iff_ne_zero.mpr (hcount'.ne_zero_iff.mpr hne))
    rw [if_pos (hcount.ne_zero_iff.mpr hne)]
    refine Ensures.bind ⟨e', he', rfl⟩ ?_
    rintro _ rfl
    refine Ensures.pure ⟨List.nodup_singleton _, fun key => ?_, List.forall_mem_singleton.mpr hone⟩
    rw [List.map_singleton, List.mem_singleton, hkey'.trans hkey]
    obtain ⟨σ, hσ⟩ := hne
    exact ⟨fun h => ⟨σ, hσ, h.symm⟩, fun h => h.choose_spec.2.symm⟩
  · rw [if_neg fun h => hne (hcount.ne_zero_iff.mp h)]
    refine Ensures.pure ⟨List.nodup_nil, fun key => ?_, by simp⟩
    exact iff_of_false List.not_mem_nil fun h => hne ⟨h.choose, h.choose_spec.1⟩

/-- Einsum with the value type `bool` returns, and what it yields is right if no value of a failed
sub-problem is kept. -/
theorem einsum_bool_spec (hr : Readable t F ns) (hp : Problem t F ns operands result)
    (hresult : ∀ l ∈ result, l ∈ labelSet operands) (c : EinsumChoices K V)
    (hhash : NoHashCollision hash operands result) :
    Ensures (einsum (M := M) t ns c true hash (subscriptOf operands result)
      (operands.map (·.hypertrie))) fun out => DistinctResult operands result out ↔
        (leaves t ns c ((labelSet operands).card + 1) operands result).IsChain Leaf.Fits := by
  by_cases hd : (subscriptOf operands result).allResultDone = true
  · refine (einsum_bool_done hr hp hresult hd).mono fun out hout => iff_of_true hout ?_
    rcases leaves_of_done t ns c (labelSet operands).card hd with ⟨-, h⟩ | ⟨-, h⟩ <;>
      rw [h] <;> exact List.isChain_singleton _
  · have hright := getSubOperator_right (M := M) hr c true ((labelSet operands).card + 1)
    have hfollows := getSubOperator_follows (M := M) hr c ((labelSet operands).card + 1)
    have hl : (Entry.makeFilled (K := K) result.length 1).key.length = result.length :=
      List.length_replicate
    have hn : (labelSet operands).card < (labelSet operands).card + 1 := Nat.lt_succ_self _
    have hd' : (subscriptOf operands result).allResultDone = false := by simpa using hd
    rw [einsum, if_neg hd]
    refine Ensures.bind ((hright.generator _ _ _ hp hn hl hd').and
      (hfollows _ _ _ hp hn hl le_rfl hd')) ?_
    rintro ⟨out, e⟩ ⟨⟨-, hlists⟩, hrun⟩
    have hlists := hlists.congr fun σ _ => fill_all hl hresult
    refine Ensures.pure ?_
    rw [if_pos rfl, distinctResult_iff hhash hlists (hrun.value_le le_rfl).2, hrun.all_one_iff]
    have hfound : Leaf.ofValue 1 ≠ .failed := by decide
    exact Leaf.isChain_kept hfound

/-- Einsum with the value type `bool` yields each key of a solution once and with the value true if
and only if no product without an own value directly follows a failed sub-problem. -/
theorem einsum_bool_exact_iff (hc : Canonical t ns roots) (hn : NoCollision t roots)
    (hv : ∀ o ∈ operands, o.Valid t (Live roots) ns) (hlen : operands.length ≤ posTypeCount)
    (hnodup : result.Nodup) (hresult : ∀ l ∈ result, l ∈ labelSet operands) (c : EinsumChoices K V)
    (hhash : NoHashCollision hash operands result) :
    (∃ out, einsum (M := M) t ns c true hash (subscriptOf operands result)
        (operands.map (·.hypertrie)) = some out ∧ DistinctResult operands result out) ↔
      (leaves t ns c ((labelSet operands).card + 1) operands result).IsChain Leaf.Fits := by
  obtain ⟨out, hout, hiff⟩ := einsum_bool_spec (M := M) (hc.readable hn) ⟨hv, hlen, hnodup⟩ hresult c hhash
  rw [← hiff]
  constructor
  · rintro ⟨out', hout', h⟩
    obtain rfl := Option.some.inj (hout.symm.trans hout')
    exact h
  · exact fun h => ⟨out, hout, h⟩

end Einsum

section Examples

/-- The labels of the operands and the entries they hold. -/
abbrev Shape (K V : Type) := List (List Label × Finset (SingleEntry K V))

def shapeOf (operands : List (LabelledOperand K V)) : Shape K V :=
  operands.map fun o => (o.labels, o.entries)

namespace Shape

def maskOf (label : Label) (labels : List Label) : RawKeyPositions := labels.map (decide <| · = label)

/-- The shape after a join. -/
def after (label : Label) (keyPart : K) (shape : Shape K V) : Shape K V :=
  (shape.filter fun p => p.1.filter (· ≠ label) ≠ []).map fun p =>
    (p.1.filter (· ≠ label), (maskOf label p.1).diagonal p.2 keyPart)

/-- The key parts of the operands that are joined. -/
def joinKeys (label : Label) (shape : Shape K V) : List (Finset K) :=
  (shape.filter (label ∈ ·.1)).map fun p => (maskOf label p.1).diagonalKeys p.2

end Shape

variable {t : HypertrieTrait K V} {F : Nat → Finset (SingleEntry K V) → Prop}
variable {ns : NodeStorage M K V} {c : EinsumChoices K V} {n : Nat}
variable {operands : List (LabelledOperand K V)} {result : List Label} {label : Label} {keyPart : K}

omit [DecidableEq K] [DecidableEq V] in
theorem mask_toJoin {o : LabelledOperand K V} (hv : o.Valid t F ns) (label : Label) :
    (o.toJoin label).mask = Shape.maskOf label o.labels := by
  rw [JoinOperand.mask, LabelledOperand.toJoin, hv.depth, mask_eq, Shape.maskOf]

theorem zipWith_const {α β γ : Type} (f : α → γ) {l : List α} {l' : List β} (h : l'.length = l.length) :
    List.zipWith (fun a _ => f a) l l' = l.map f := by
  induction l generalizing l' with
  | nil => rfl
  | cons a l ih =>
    cases l' with
    | nil => cases h
    | cons b l' => exact congrArg _ (ih (Nat.succ.inj h))

theorem forall_joinKeys : (∀ keys ∈ (shapeOf operands).joinKeys label, keyPart ∈ keys) ↔
    ∀ o ∈ operands, label ∈ o.labels → keyPart ∈ (Shape.maskOf label o.labels).diagonalKeys o.entries := by
  simp only [Shape.joinKeys, shapeOf, List.mem_filter, List.mem_map, and_imp, forall_exists_index,
    forall_apply_eq_imp_iff₂, decide_eq_true_eq]
  constructor
  · exact fun h o ho hl => h _ o ho hl rfl
  · rintro h _ o ho hl rfl
    exact h o ho hl

theorem common_iff_joinKeys (hv : ∀ o ∈ operands, o.Valid t F ns) :
    Common label operands keyPart ↔ ∀ keys ∈ (shapeOf operands).joinKeys label, keyPart ∈ keys := by
  rw [common_iff hv, forall_joinKeys, List.forall_mem_map]
  refine forall₂_congr fun o ho => ?_
  rw [isJoined_iff, JoinOperand.diagonalKeys, mask_toJoin (hv o ho)]
  rfl

theorem JoinItem.shapeOf_eq {item : K × List (ConstHypertrie K V)}
    (hi : JoinItem t F ns operands label item) (hv : ∀ o ∈ operands, o.Valid t F ns) :
    shapeOf (afterJoins label item.1 operands item.2) = (shapeOf operands).after label item.1 := by
  have hlen := hi.delivered.length_eq
  rw [kept_toJoin fun o ho => (hv o ho).held, List.length_map] at hlen
  rw [shapeOf, afterJoins, List.map_zipWith]
  show List.zipWith (fun (o : LabelledOperand K V) _ =>
    (o.labels.filter (· ≠ label), (o.toJoin label).slice item.1)) _ _ = _
  rw [zipWith_const _ hlen.symm, Shape.after, shapeOf, List.filter_map, List.map_map]
  refine List.map_congr_left fun o ho => ?_
  rw [JoinOperand.slice, mask_toJoin (hv o (List.mem_filter.mp ho).1)]
  rfl

/-- The leaves of a join are those of its items. -/
theorem leaves_join (hr : Readable t F ns) (hp : Problem t F ns operands result)
    (hd : (subscriptOf operands result).allResultDone = false)
    (htype : (subscriptOf operands result).type c.sets = some .join)
    (hlabel : c.minCardLabel (operands.map (·.hypertrie)) (subscriptOf operands result) = label)
    (hmem : label ∈ labelSet operands) :
    ∃ items : List (K × List (LabelledOperand K V)), leaves t ns c (n + 1) operands result =
        items.flatMap (fun item => leaves t ns c n item.2 result) ∧
      (items.map Prod.fst).Nodup ∧
      (∀ k, k ∈ items.map Prod.fst ↔ ∀ keys ∈ (shapeOf operands).joinKeys label, k ∈ keys) ∧
      ∀ item ∈ items, Problem t F ns item.2 result ∧
        shapeOf item.2 = (shapeOf operands).after label item.1 := by
  obtain ⟨items, heq, hnodup, hkeys, hitems⟩ := items_spec c.std hr hp hmem
  refine ⟨items.map fun item => (item.1, afterJoins label item.1 operands item.2), ?_, ?_, ?_, ?_⟩
  · rw [leaves, if_neg (by simp [hd])]
    simp only [htype, hlabel, heq, Option.getD_some, List.flatMap_map]
  · rwa [List.map_map]
  · intro k
    rw [← common_iff_joinKeys hp.valid, ← hkeys k, List.map_map]
    rfl
  · rw [List.forall_mem_map]
    exact fun item hm => ⟨((hitems item hm).problem hp hmem).1, (hitems item hm).shapeOf_eq hp.valid⟩

omit [DecidableEq K] [DecidableEq V] [Inhabited K] in
theorem subscriptOf_eq_shape (operands : List (LabelledOperand K V)) (result : List Label) :
    subscriptOf operands result = ⟨(shapeOf operands).map Prod.fst, result⟩ := by
  rw [subscriptOf, shapeOf, List.map_map]
  rfl

omit [DecidableEq K] [DecidableEq V] [Inhabited K] in
theorem labelSet_eq_shape (operands : List (LabelledOperand K V)) :
    labelSet operands = ((shapeOf operands).map Prod.fst).flatten.toFinset := by
  rw [labelSet, shapeOf, List.map_map]
  rfl

omit [DecidableEq K] [DecidableEq V] [Inhabited K] in
theorem mem_constraints_shape {σ : Label → K} : σ ∈ constraints operands ↔
    ∀ p ∈ shapeOf operands, ∃ e ∈ p.2, e.key = p.1.map σ := by
  rw [mem_constraints, shapeOf, List.forall_mem_map]
  rfl

/-- The label 98 is joined before others where the first operand has the single entry [1, 5]. -/
def EinsumChoices.stale : EinsumChoices (BitVec 64) Bool :=
  { EinsumChoices.first (BitVec 64) Bool with
    minCardLabel := fun operands sc =>
      if 98 ∈ sc.operandsLabelSet ∧ operands.head?.any
          (·.nodeIdentifier = defaultBoolTrait.ident 2 {⟨[1, 5], true⟩}) then 98
      else (EinsumChoices.first _ _).minCardLabel operands sc
    minCardLabel_mem := fun operands sc h => by
      split
      next h98 => exact h98.1
      next => exact (EinsumChoices.first _ _).minCardLabel_mem operands sc h }

def staleOperand (labels : List Label) (entries : Finset (SingleEntry (BitVec 64) Bool)) :
    LabelledOperand (BitVec 64) Bool :=
  ⟨.ofNode defaultBoolTrait labels.length (defaultBoolTrait.ident labels.length entries), labels, entries⟩

def staleYX : Finset (SingleEntry (BitVec 64) Bool) :=
  {⟨[1, 1], true⟩, ⟨[1, 2], true⟩, ⟨[2, 1], true⟩, ⟨[2, 2], true⟩}

def staleXAB : Finset (SingleEntry (BitVec 64) Bool) := {⟨[1, 1, 5], true⟩, ⟨[2, 4, 6], true⟩}

def staleXAC : Finset (SingleEntry (BitVec 64) Bool) :=
  {⟨[1, 2, 7], true⟩, ⟨[2, 4, 7], true⟩, ⟨[2, 2, 7], true⟩}

def staleOperands : List (LabelledOperand (BitVec 64) Bool) :=
  [staleOperand [121, 120] staleYX, staleOperand [120, 97, 98] staleXAB, staleOperand [120, 97, 99] staleXAC]

section Stale

variable {ns : NodeStorage M (BitVec 64) Bool} {F : Nat → Finset (SingleEntry (BitVec 64) Bool) → Prop}
variable {operands : List (LabelledOperand (BitVec 64) Bool)}
variable {labels : List Label} {entries : Finset (SingleEntry (BitVec 64) Bool)}
variable {rest : Shape (BitVec 64) Bool}

theorem minCardLabel_stale {result : List Label} (hp : Problem defaultBoolTrait F ns operands result)
    (hs : shapeOf operands = (labels, entries) :: rest) :
    EinsumChoices.stale.minCardLabel (operands.map (·.hypertrie)) (subscriptOf operands result) =
      if 98 ∈ ((shapeOf operands).map Prod.fst).flatten.toFinset ∧
        defaultBoolTrait.ident labels.length entries = defaultBoolTrait.ident 2 {⟨[1, 5], true⟩} then 98
      else ((shapeOf operands).map Prod.fst).flatten.headD 0 := by
  obtain ⟨o, operands, rfl, ho, -⟩ := List.map_eq_cons_iff.mp hs
  obtain ⟨rfl, rfl⟩ := Prod.mk.inj ho
  have hv := hp.valid o List.mem_cons_self
  have hident : o.hypertrie.nodeIdentifier = defaultBoolTrait.ident o.labels.length o.entries := by
    rw [← hv.depth]
    exact hv.holds.ident hv.held.depth_pos
  rw [← labelSet_eq_shape, ← operandsLabelSet_subscriptOf _ result, subscriptOf_eq_shape, ← hident]
  simp [EinsumChoices.stale, EinsumChoices.first]

/-- A single result that fails. -/
theorem leaves_failed (hs : shapeOf operands =
      [([97], {⟨[1], true⟩}), ([97, 99], {⟨[2, 7], true⟩})]) (n : Nat) :
    leaves defaultBoolTrait ns .stale (n + 1) operands [121, 98] = [.failed] := by
  have hd : (subscriptOf operands [121, 98]).allResultDone = true := by
    rw [subscriptOf_eq_shape, hs]
    decide +kernel
  rcases leaves_of_done defaultBoolTrait ns .stale n hd with ⟨⟨σ, hσ, -⟩, -⟩ | ⟨-, h⟩
  · rw [mem_constraints_shape, hs] at hσ
    obtain ⟨e, he, hkey⟩ := hσ _ List.mem_cons_self
    obtain ⟨e', he', hkey'⟩ := hσ _ (List.mem_cons_of_mem _ List.mem_cons_self)
    rw [Finset.mem_singleton.mp he] at hkey
    rw [Finset.mem_singleton.mp he'] at hkey'
    have h1 : 1 = σ 97 := (List.cons.inj hkey).1
    have h2 : 2 = σ 97 := (List.cons.inj hkey').1
    exact absurd (h1.trans h2.symm) (by decide)
  · exact h

/-- A product that keeps the value. -/
theorem leaves_kept (hp : Problem defaultBoolTrait F ns operands [121, 98])
    (hs : shapeOf operands = [([98], {⟨[6], true⟩}), ([99], {⟨[7], true⟩})]) (n : Nat) :
    leaves defaultBoolTrait ns .stale (n + 1) operands [121, 98] = [.kept] := by
  have hsc : subscriptOf operands [121, 98] = ⟨[[98], [99]], [121, 98]⟩ := by
    rw [subscriptOf_eq_shape, hs]
    rfl
  have hd : (subscriptOf operands [121, 98]).allResultDone = false := by
    rw [hsc]
    decide +kernel
  have htype : (subscriptOf operands [121, 98]).type EinsumChoices.stale.sets = some .cartesian := by
    rw [hsc]
    decide +kernel
  have hcs : (subscriptOf operands [121, 98]).connectedComponents EinsumChoices.stale.sets =
      some [{98}, {99}] := by
    rw [hsc]
    decide +kernel
  have hne : (solutions operands).Nonempty := by
    refine ⟨fun l => if l = 98 then 6 else if l = 99 then 7 else default, ?_, fun l hl => ?_⟩
    · rw [mem_constraints_shape, hs]
      simp
    · rw [labelSet_eq_shape, hs] at hl
      simp only [List.map_cons, List.map_nil, List.flatten_cons, List.flatten_nil, List.mem_toFinset,
        List.cons_append, List.nil_append, List.mem_cons, List.not_mem_nil, or_false, not_or] at hl
      show (if l = 98 then 6 else if l = 99 then 7 else default) = default
      rw [if_neg hl.1, if_neg hl.2]
  have hdone : iteratedDone .stale operands [121, 98] = false := by
    rw [iteratedDone, CartesianOperator.extractSuboperands_eq hp.length hcs]
    show ((subscriptOf operands [121, 98]).extractCartesianSubSubscript {98}).subscript.allResultDone = false
    rw [hsc]
    decide +kernel
  rw [leaves, if_neg (ne_true_of_eq_false hd)]
  simp only [htype, if_pos hne, hdone, Bool.false_eq_true, if_false]

/-- A join whose label and key parts are known. -/
theorem leaves_join_stale (hr : Readable defaultBoolTrait F ns)
    (hp : Problem defaultBoolTrait F ns operands [121, 98]) {shape : Shape (BitVec 64) Bool}
    (hs : shapeOf operands = shape) (label : Label) (keyParts : List (BitVec 64))
    (hnodup : keyParts.Nodup) (n : Nat)
    (hd : (⟨shape.map Prod.fst, [121, 98]⟩ : Subscript).allResultDone = false)
    (htype : (⟨shape.map Prod.fst, [121, 98]⟩ : Subscript).type SetBegin.least = some .join)
    (hlabel : EinsumChoices.stale.minCardLabel (operands.map (·.hypertrie))
      (subscriptOf operands [121, 98]) = label)
    (hmem : label ∈ (shape.map Prod.fst).flatten.toFinset)
    (hkeys : keyParts.toFinset ∈ shape.joinKeys label ∧
      (shape.joinKeys label).all (fun keys => keyParts.toFinset ⊆ keys) = true) :
    ∃ items : List (BitVec 64 × List (LabelledOperand (BitVec 64) Bool)),
      leaves defaultBoolTrait ns .stale (n + 1) operands [121, 98] =
        items.flatMap (fun item => leaves defaultBoolTrait ns .stale n item.2 [121, 98]) ∧
      (items.map Prod.fst).Perm keyParts ∧
      ∀ item ∈ items, Problem defaultBoolTrait F ns item.2 [121, 98] ∧
        shapeOf item.2 = shape.after label item.1 := by
  subst hs
  rw [← subscriptOf_eq_shape] at hd htype
  rw [← labelSet_eq_shape] at hmem
  obtain ⟨items, hleaves, hitemNodup, hitemKeys, hitems⟩ := leaves_join (n := n) hr hp hd htype hlabel hmem
  refine ⟨items, hleaves, (List.perm_ext_iff_of_nodup hitemNodup hnodup).mpr fun k => ?_, hitems⟩
  rw [hitemKeys]
  constructor
  · exact fun h => List.mem_toFinset.mp (h _ hkeys.1)
  · intro h keys hm
    have hsub := of_decide_eq_true (List.all_eq_true.mp hkeys.2 keys hm)
    exact hsub (List.mem_toFinset.mpr h)

theorem eq_of_perm_single {β : Type} {items : List (BitVec 64 × β)} {k : BitVec 64}
    (h : (items.map Prod.fst).Perm [k]) : ∃ b, items = [(k, b)] := by
  obtain ⟨⟨k', b⟩, rfl, rfl⟩ := List.map_eq_singleton_iff.mp (List.perm_singleton.mp h)
  exact ⟨b, rfl⟩

theorem leaves_first (hr : Readable defaultBoolTrait F ns)
    (hp : Problem defaultBoolTrait F ns operands [121, 98])
    (hs : shapeOf operands = [([97, 98], {⟨[1, 5], true⟩}), ([97, 99], {⟨[2, 7], true⟩})]) (n : Nat) :
    leaves defaultBoolTrait ns .stale (n + 2) operands [121, 98] = [.failed] := by
  have hlabel := minCardLabel_stale hp hs
  rw [hs] at hlabel
  obtain ⟨items, hleaves, hperm, hitems⟩ := leaves_join_stale hr hp hs 98 [5] (List.nodup_singleton 5) (n + 1)
    (by decide +kernel) (by decide +kernel) (hlabel.trans (by decide +kernel)) (by decide +kernel)
    (by decide +kernel)
  obtain ⟨operands', rfl⟩ := eq_of_perm_single hperm
  obtain ⟨-, hshape⟩ := hitems _ List.mem_cons_self
  rw [hleaves, List.flatMap_cons, List.flatMap_nil, List.append_nil]
  have hafter : Shape.after 98 5 [([97, 98], ({⟨[1, 5], true⟩} : Finset (SingleEntry (BitVec 64) Bool))),
      ([97, 99], {⟨[2, 7], true⟩})] = [([97], {⟨[1], true⟩}), ([97, 99], {⟨[2, 7], true⟩})] := by
    decide +kernel
  exact leaves_failed (hshape.trans hafter) n

theorem leaves_second (hr : Readable defaultBoolTrait F ns)
    (hp : Problem defaultBoolTrait F ns operands [121, 98])
    (hs : shapeOf operands =
      [([97, 98], {⟨[4, 6], true⟩}), ([97, 99], {⟨[4, 7], true⟩, ⟨[2, 7], true⟩})]) (n : Nat) :
    leaves defaultBoolTrait ns .stale (n + 2) operands [121, 98] = [.kept] := by
  have hlabel := minCardLabel_stale hp hs
  rw [hs] at hlabel
  obtain ⟨items, hleaves, hperm, hitems⟩ := leaves_join_stale hr hp hs 97 [4] (List.nodup_singleton 4) (n + 1)
    (by decide +kernel) (by decide +kernel) (hlabel.trans (by decide +kernel)) (by decide +kernel)
    (by decide +kernel)
  obtain ⟨operands', rfl⟩ := eq_of_perm_single hperm
  obtain ⟨hproblem, hshape⟩ := hitems _ List.mem_cons_self
  rw [hleaves, List.flatMap_cons, List.flatMap_nil, List.append_nil]
  have hafter : Shape.after 97 4 [([97, 98], ({⟨[4, 6], true⟩} : Finset (SingleEntry (BitVec 64) Bool))),
      ([97, 99], {⟨[4, 7], true⟩, ⟨[2, 7], true⟩})] = [([98], {⟨[6], true⟩}), ([99], {⟨[7], true⟩})] := by
    decide +kernel
  exact leaves_kept hproblem (hshape.trans hafter) n

/-- One sub-problem fails and the other keeps the value, in any order. -/
theorem leaves_both (hr : Readable defaultBoolTrait F ns)
    (hp : Problem defaultBoolTrait F ns operands [121, 98])
    (hs : shapeOf operands = [([120], {⟨[1], true⟩, ⟨[2], true⟩}), ([120, 97, 98], staleXAB),
      ([120, 97, 99], staleXAC)]) (n : Nat) :
    (leaves defaultBoolTrait ns .stale (n + 3) operands [121, 98]).Perm [.failed, .kept] := by
  have hlabel := minCardLabel_stale hp hs
  rw [hs] at hlabel
  obtain ⟨items, hleaves, hperm, hitems⟩ := leaves_join_stale hr hp hs 120 [1, 2]
    (by decide) (n + 2) (by decide +kernel) (by decide +kernel) (hlabel.trans (by decide +kernel))
    (by decide +kernel) (by decide +kernel)
  have hitem (item) (hm : item ∈ items) :
      leaves defaultBoolTrait ns .stale (n + 2) item.2 [121, 98] = [if item.1 = 1 then .failed else .kept] := by
    obtain ⟨hproblem, hshape⟩ := hitems item hm
    rcases List.mem_pair.mp (hperm.mem_iff.mp (List.mem_map_of_mem hm)) with h | h
    · rw [h] at hshape
      rw [h, if_pos rfl]
      exact leaves_first hr hproblem (hshape.trans (by decide +kernel)) n
    · rw [h] at hshape
      rw [h, if_neg (by decide)]
      exact leaves_second hr hproblem (hshape.trans (by decide +kernel)) n
  have hmap : leaves defaultBoolTrait ns .stale (n + 3) operands [121, 98] =
      (items.map Prod.fst).map fun k => if k = 1 then .failed else .kept := by
    rw [hleaves, List.flatMap_congr hitem, List.map_map, ← List.map_eq_flatMap]
    rfl
  rw [hmap]
  exact hperm.map _

/-- After the first join, the value of a failed sub-problem is kept in any order. -/
theorem not_isChain_stale (hr : Readable defaultBoolTrait F ns)
    (hp : Problem defaultBoolTrait F ns operands [121, 98]) (hs : shapeOf operands =
      [([121, 120], staleYX), ([120, 97, 98], staleXAB), ([120, 97, 99], staleXAC)]) (n : Nat) :
    ¬ (leaves defaultBoolTrait ns .stale (n + 4) operands [121, 98]).IsChain Leaf.Fits := by
  have hlabel := minCardLabel_stale hp hs
  rw [hs] at hlabel
  obtain ⟨items, hleaves, hperm, hitems⟩ := leaves_join_stale hr hp hs 121 [1, 2]
    (by decide) (n + 3) (by decide +kernel) (by decide +kernel) (hlabel.trans (by decide +kernel))
    (by decide +kernel) (by decide +kernel)
  have hafter : ∀ k ∈ [1, 2], Shape.after (K := BitVec 64) 121 k
      [([121, 120], staleYX), ([120, 97, 98], staleXAB), ([120, 97, 99], staleXAC)] =
        [([120], {⟨[1], true⟩, ⟨[2], true⟩}), ([120, 97, 98], staleXAB), ([120, 97, 99], staleXAC)] := by
    rw [List.forall_mem_cons, List.forall_mem_singleton]
    decide +kernel
  have hitem (item) (hm : item ∈ items) :
      leaves defaultBoolTrait ns .stale (n + 3) item.2 [121, 98] = [.failed, .kept] ∨
        leaves defaultBoolTrait ns .stale (n + 3) item.2 [121, 98] = [.kept, .failed] := by
    obtain ⟨hproblem, hshape⟩ := hitems item hm
    have hk := hafter item.1 (hperm.mem_iff.mp (List.mem_map_of_mem hm))
    exact List.perm_pair.mp (leaves_both hr hproblem (hshape.trans hk) n)
  have hlen := hperm.length_eq
  rw [List.length_map] at hlen
  obtain ⟨item, item', rfl⟩ := List.length_eq_two.mp hlen
  have h := hitem item List.mem_cons_self
  have h' := hitem item' (List.mem_cons_of_mem _ List.mem_cons_self)
  rw [hleaves, List.flatMap_cons, List.flatMap_cons, List.flatMap_nil, List.append_nil]
  rcases h with h | h <;> rcases h' with h' | h' <;> rw [h, h'] <;> decide

end Stale

/-- A value of its own for each key part of the label 121. -/
def staleHash (e : Entry (BitVec 64)) : BitVec 64 := e.key.headD 0 * 2 + BitVec.ofNat 64 e.value

theorem noHashCollision_stale : NoHashCollision staleHash staleOperands [121, 98] := by
  let yielded : List (Entry (BitVec 64)) := [⟨[1, 6], 0⟩, ⟨[1, 6], 1⟩, ⟨[2, 6], 0⟩, ⟨[2, 6], 1⟩]
  have hrows : ∀ e₁ ∈ staleYX, ∀ e₂ ∈ staleXAB, ∀ e₃ ∈ staleXAC, e₂.key.take 2 = e₃.key.take 2 →
      ∀ value ∈ [0, 1], ⟨[e₁.key.headD 0, e₂.key.getD 2 0], value⟩ ∈ yielded := by
    decide +kernel
  have hinj : ∀ e ∈ yielded, ∀ e' ∈ yielded, staleHash e = staleHash e' → e = e' := by
    decide +kernel
  have hmem (e : Entry (BitVec 64))
      (he : (∃ σ ∈ solutions staleOperands, [121, 98].map σ = e.key) ∧ e.value ≤ 1) : e ∈ yielded := by
    obtain ⟨⟨σ, ⟨hσ, -⟩, hkey⟩, hvalue⟩ := he
    rw [mem_constraints_shape] at hσ
    obtain ⟨e₁, he₁, h₁⟩ := hσ ([121, 120], staleYX) (by simp [shapeOf, staleOperands, staleOperand])
    obtain ⟨e₂, he₂, h₂⟩ := hσ ([120, 97, 98], staleXAB) (by simp [shapeOf, staleOperands, staleOperand])
    obtain ⟨e₃, he₃, h₃⟩ := hσ ([120, 97, 99], staleXAC) (by simp [shapeOf, staleOperands, staleOperand])
    have hle : e.value ∈ [0, 1] := by
      rw [List.mem_pair]
      omega
    have h := hrows e₁ he₁ e₂ he₂ e₃ he₃ (by rw [h₂, h₃]; rfl) e.value hle
    rw [h₁, h₂] at h
    have he : e = ⟨[σ 121, σ 98], e.value⟩ := by
      rw [show [σ 121, σ 98] = e.key from hkey]
    rw [he]
    exact h
  exact fun e he e' he' h => hinj e (hmem e he) e' (hmem e' he') h

theorem exists_staleOperands : ∃ (ns : NodeStorage AssocMap (BitVec 64) Bool)
    (roots : Multiset (Root (BitVec 64) Bool)),
    Canonical defaultBoolTrait ns roots ∧ NoCollision defaultBoolTrait roots ∧
    ∀ o ∈ staleOperands, o.Valid defaultBoolTrait (Live roots) ns := by
  let roots : Multiset (Root (BitVec 64) Bool) := {⟨2, staleYX⟩, ⟨3, staleXAB⟩, ⟨3, staleXAC⟩}
  have hr : RootsOk defaultBoolTrait roots := by
    intro r hr
    rcases Multiset.mem_cons.mp hr with rfl | hr
    · exact ⟨by decide, by decide, by decide, by decide⟩
    rcases Multiset.mem_cons.mp hr with rfl | hr
    · exact ⟨by decide, by decide, by decide, by decide⟩
    obtain rfl := Multiset.mem_singleton.mp hr
    exact ⟨by decide, by decide, by decide, by decide⟩
  have hn : NoCollision defaultBoolTrait roots :=
    noCollision_of_liveSets (by decide +kernel) (by decide +kernel)
  obtain ⟨ns, hc⟩ := exists_canonical (M := AssocMap) hr hn
  refine ⟨ns, roots, hc, hn, ?_⟩
  have hvalid (labels : List Label) (entries : Finset (SingleEntry (BitVec 64) Bool))
      (hm : ⟨labels.length, entries⟩ ∈ roots) (hne : entries.Nonempty) (hlabels : labels ≠ []) :
      (staleOperand labels entries).Valid defaultBoolTrait (Live roots) ns := by
    have hholds := hc.root_holds hn hm
    exact ⟨hholds, hne, rfl, hlabels⟩
  refine List.forall_mem_cons.mpr ⟨?_, List.forall_mem_cons.mpr ⟨?_, List.forall_mem_singleton.mpr ?_⟩⟩
  · exact hvalid _ _ (Multiset.mem_cons_self _ _) (by decide) (by decide)
  · exact hvalid _ _ (Multiset.mem_cons_of_mem (Multiset.mem_cons_self _ _)) (by decide) (by decide)
  · exact hvalid _ _ (Multiset.mem_cons_of_mem (Multiset.mem_cons_of_mem (Multiset.mem_singleton_self _)))
      (by decide) (by decide)

/-- Something is yielded with the value false. -/
theorem einsum_bool_stale : ∃ (ns : NodeStorage AssocMap (BitVec 64) Bool)
    (roots : Multiset (Root (BitVec 64) Bool)) (out : List (Entry (BitVec 64))),
    Canonical defaultBoolTrait ns roots ∧ NoCollision defaultBoolTrait roots ∧
    (∀ o ∈ staleOperands, o.Valid defaultBoolTrait (Live roots) ns) ∧
    NoHashCollision staleHash staleOperands [121, 98] ∧
    einsum (M := AssocMap) defaultBoolTrait ns .stale true staleHash (subscriptOf staleOperands [121, 98])
      (staleOperands.map (·.hypertrie)) = some out ∧ ¬ DistinctResult staleOperands [121, 98] out := by
  obtain ⟨ns, roots, hc, hn, hv⟩ := exists_staleOperands
  have hp : Problem defaultBoolTrait (Live roots) ns staleOperands [121, 98] :=
    ⟨hv, by decide, by decide⟩
  have hresult : ∀ l ∈ [121, 98], l ∈ labelSet staleOperands := by
    rw [labelSet_eq_shape]
    decide +kernel
  obtain ⟨out, hout, hiff⟩ := einsum_bool_spec (M := AssocMap) (hc.readable hn) hp hresult .stale
    noHashCollision_stale
  have hcard : (labelSet staleOperands).card = 5 := by
    rw [labelSet_eq_shape]
    decide +kernel
  rw [hcard] at hiff
  exact ⟨ns, roots, out, hc, hn, hv, noHashCollision_stale, hout, fun h =>
    not_isChain_stale (hc.readable hn) hp rfl 2 (hiff.mp h)⟩

/-- Three components, one of them without a result label. -/
def threeParts : List (LabelledOperand (BitVec 64) Bool) :=
  [singleLabel 97 {8, 9}, singleLabel 98 {7}, singleLabel 99 {8, 9}]

theorem einsum_bool_exact_iff_one : ∃ (ns : NodeStorage AssocMap (BitVec 64) Bool) (out : _),
    einsum (M := AssocMap) defaultBoolTrait ns (.first _ _) true
      (fun e => 2 * e.key.headD 0 + BitVec.ofNat 64 e.value) (subscriptOf threeParts [97, 98])
      (threeParts.map (·.hypertrie)) = some out ∧ DistinctResult threeParts [97, 98] out := by
  obtain ⟨ns, roots, hc, hn, hv⟩ := exists_singleLabel
  have hvalid : ∀ o ∈ threeParts, o.Valid defaultBoolTrait (Live roots) ns := by
    simp only [threeParts, List.forall_mem_cons]
    exact ⟨(hv 97).2, (hv 98).1, (hv 99).2, by simp⟩
  have hhash : NoHashCollision (fun e => 2 * e.key.headD 0 + BitVec.ofNat 64 e.value) threeParts
      [97, 98] := by
    have hkey (e : Entry (BitVec 64)) (he : ∃ σ ∈ solutions threeParts, [97, 98].map σ = e.key) :
        e.key = [8, 7] ∨ e.key = [9, 7] := by
      obtain ⟨σ, ⟨hσ, -⟩, hkey⟩ := he
      obtain ⟨e₁, he₁, hrow₁⟩ := mem_constraints.mp hσ (singleLabel 97 {8, 9}) (by simp [threeParts])
      obtain ⟨e₂, he₂, hrow₂⟩ := mem_constraints.mp hσ (singleLabel 98 {7}) (by simp [threeParts])
      have hfirst : [σ 97] = e₁.key := hrow₁.symm
      have hsecond : [σ 98] = e₂.key := hrow₂.symm
      have hpart : σ 98 = 7 := by
        rw [Finset.mem_singleton.mp he₂] at hsecond
        simpa using hsecond
      rw [← hkey, List.map_cons, List.map_singleton, hpart]
      simp only [singleLabel, Finset.mem_image, Finset.mem_insert, Finset.mem_singleton] at he₁
      obtain ⟨_, rfl | rfl, rfl⟩ := he₁
      · exact .inl (by simpa using hfirst)
      · exact .inr (by simpa using hfirst)
    rintro ⟨key, value⟩ ⟨hsolution, hle⟩ ⟨key', value'⟩ ⟨hsolution', hle'⟩ h
    obtain rfl | rfl := hkey _ hsolution <;> obtain rfl | rfl := hkey _ hsolution' <;>
      obtain rfl | rfl := Nat.le_one_iff_eq_zero_or_eq_one.mp hle <;>
      obtain rfl | rfl := Nat.le_one_iff_eq_zero_or_eq_one.mp hle' <;>
      first | rfl | exact absurd h (by decide)
  have hd : (subscriptOf threeParts [97, 98]).allResultDone = false := by decide +kernel
  have htype : (subscriptOf threeParts [97, 98]).type (EinsumChoices.first (BitVec 64) Bool).sets =
      some .cartesian := by decide +kernel
  refine ⟨ns, (einsum_bool_exact_iff hc hn hvalid (by decide) (by decide) (by decide +kernel)
    (.first _ _) hhash).mpr ?_⟩
  rw [leaves, if_neg (ne_true_of_eq_false hd)]
  simp only [htype]
  split
  · exact List.isChain_singleton _
  · exact List.isChain_nil

end Examples

end Hypertrie
