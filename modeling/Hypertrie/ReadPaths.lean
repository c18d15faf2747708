import Hypertrie.RawIterator

/-! The ways to read the value of a key. They agree unless the value does not
survive the conversion to `size_t`, which two of them go through. -/

namespace Hypertrie

open UnorderedMap

variable {M : Type → Type → Type} [UnorderedMap M] {K V : Type}
variable [DecidableEq K] [Inhabited K]
variable {t : HypertrieTrait K V} {F : Nat → Finset (SingleEntry K V) → Prop}
variable {ns : NodeStorage M K V} {roots : Multiset (Root K V)} {h : ConstHypertrie K V}
  {S : Finset (SingleEntry K V)} {d : Nat} {key : List K} {v : V}

/-- `operator[](RawKey)`. -/
def ConstHypertrie.getRawKeyValue (t : HypertrieTrait K V) (ns : NodeStorage M K V)
    (h : ConstHypertrie K V) (key : List K) : Option V :=
  if h.depth = 0 then h.nodePtr.decodeDepth0Value t else h.getDepthNValue t ns key

/-- The value that a loop over these entries comes across for the key, 0 if it does not. -/
def valueAmong (t : HypertrieTrait K V) (l : List (SingleEntry K V)) (key : List K) : V :=
  ((l.find? fun e => e.key = key).map SingleEntry.value).getD t.zero

omit [Inhabited K] in
theorem valueAt_valueAmong {l : List (SingleEntry K V)} (h : ∀ e, e ∈ l ↔ e ∈ S) (key : List K) :
    ValueAt t S key (valueAmong t l key) := by
  rw [valueAmong]
  cases hf : l.find? (fun e => e.key = key) with
  | some e =>
    have hkey : e.key = key := by simpa using List.find?_some hf
    have hm := (h e).mp (List.mem_of_find?_eq_some hf)
    refine Or.inl ?_
    rw [← hkey]
    exact hm
  | none =>
    refine Or.inr ⟨rfl, fun e he => ?_⟩
    simpa using List.find?_eq_none.mp hf e ((h e).mpr he)

/-- Every way to read the value of the key gives `v`. -/
structure ReadsAgree (t : HypertrieTrait K V) (ns : NodeStorage M K V) (h : ConstHypertrie K V)
    (key : List K) (v : V) : Prop where
  byKey : h.getValue t ns key = some v
  byRawKey : h.getRawKeyValue t ns key = some v
  bySliceKey : h.getSlice t ns (key.map some) = some (.inr v)
  get : RawHypertrieContext.get t ns h.depth h.nodeIdentifier key = some v
  getThrough : ∀ choose, (∀ d n, 0 < d → choose d n < d) →
    RawHypertrieContext.getThrough t ns choose h.depth h.nodeIdentifier key = some v
  iterated : ∃ l, h.entries t ns = some l ∧ valueAmong t l key = v

omit [DecidableEq K] [Inhabited K] in
theorem eq_some_of_valueAt {prog : Option V} (hp : Ensures prog (ValueAt t S key))
    (hset : IsEntrySet t d S) (hv : ValueAt t S key v) : prog = some v := by
  obtain ⟨v', hprog, hv'⟩ := hp
  rw [hprog, hv'.unique hset hv]

omit [DecidableEq K] in
theorem fixedKey_map_some (key : List K) : SliceKey.fixedKey (key.map some) = key := by
  simp [SliceKey.fixedKey]

omit [DecidableEq K] [Inhabited K] in
theorem getFixedDepth_map_some (key : List K) :
    SliceKey.getFixedDepth (key.map some) = key.length := by
  induction key with
  | nil => rfl
  | cons k key ih => rw [List.map_cons, SliceKey.getFixedDepth_some, ih, List.length_cons]

variable [DecidableEq V]

/-- Reading the value of a key of a canonical hypertrie. -/
theorem readsAgree_iff (hc : Canonical t ns roots) (hn : NoCollision t roots) (hr : ⟨d, S⟩ ∈ roots)
    (hl : key.length = d) (hv : ValueAt t S key v) :
    ReadsAgree t ns (.ofNode t d (t.ident d S)) key v ↔ t.viaSizeT v = v := by
  obtain ⟨hd, hset⟩ := hc.rootsOk _ hr
  have hread := hc.readable hn
  have hh := hc.root_holds hn hr
  have hdepth : (ConstHypertrie.ofNode t d (t.ident d S) : ConstHypertrie K V).depth ≠ 0 := hd.ne'
  have hvalue := ConstHypertrie.getValue_spec hread hh hl
  obtain ⟨_, hget, stored, hstored, rfl⟩ := hvalue
  rw [hstored.unique hset hv, if_neg hdepth] at hget
  constructor
  · intro hagree
    have := hagree.byKey
    rw [hget] at this
    exact Option.some.inj this
  · intro hsurvives
    rw [hsurvives] at hget
    have hraw := eq_some_of_valueAt (ConstHypertrie.getDepthNValue_spec hread hd hh hl) hset hv
    have hlength : (key.map some).length = d := (List.length_map some).trans hl
    obtain ⟨_, hslice, stored', hstored', rfl⟩ :=
      ConstHypertrie.getSlice_all hread hh hlength ((getFixedDepth_map_some key).trans hl)
    rw [fixedKey_map_some] at hstored'
    rw [hstored'.unique hset hv, if_neg hdepth, hsurvives] at hslice
    have hthrough : ∀ choose : Nat → FullNode M K V → Nat, (∀ d n, 0 < d → choose d n < d) →
        RawHypertrieContext.getThrough t ns choose d (t.ident d S) key = some v := fun choose hchoose =>
      eq_some_of_valueAt (getThrough_spec hread hd (fun hne => .root hr hne) (hc.stored hn hr)
        hchoose hl) hset hv
    obtain ⟨l, hentries, hlists⟩ := ConstHypertrie.entries_spec hread hh hd
    refine ⟨hget, ?_, hslice, ?_, hthrough, l, hentries, ?_⟩
    · rw [ConstHypertrie.getRawKeyValue, if_neg hdepth]
      exact hraw
    · exact (RawHypertrieContext.get_eq_getThrough t ns d _ key).trans
        (hthrough _ fun _ n hd => n.minCardPos_lt hd)
    · exact (valueAt_valueAmong hlists.2 key).unique hset hv

theorem readsAgree_iff_two : ∃ ns : NodeStorage AssocMap (BitVec 64) Rat,
    ReadsAgree defaultDoubleTrait ns
      (.ofNode defaultDoubleTrait 1 (defaultDoubleTrait.ident 1 {⟨[7], 2⟩})) [7] 2 := by
  have hr : RootsOk defaultDoubleTrait {⟨1, {⟨[7], 2⟩}⟩} := by
    intro r hr
    obtain rfl := Multiset.mem_singleton.mp hr
    exact ⟨by decide, by decide, by decide +kernel, by decide +kernel⟩
  have hn : NoCollision defaultDoubleTrait {⟨1, {⟨[7], 2⟩}⟩} :=
    noCollision_of_liveSets (by decide +kernel) (by decide +kernel)
  obtain ⟨ns, hc⟩ := exists_canonical (M := AssocMap) hr hn
  have hstored : ValueAt defaultDoubleTrait {⟨[7], 2⟩} [7] 2 := Or.inl (Finset.mem_singleton_self _)
  have hkept : defaultDoubleTrait.viaSizeT 2 = 2 := by decide +kernel
  exact ⟨ns, (readsAgree_iff hc hn (Multiset.mem_singleton_self _) rfl hstored).mpr hkept⟩

/-- The raw key finds the value 1/2, the key does not. -/
theorem readsDiffer_half : ∃ ns : NodeStorage AssocMap (BitVec 64) Rat,
    Canonical defaultDoubleTrait ns {⟨1, {⟨[7], 1 / 2⟩}⟩} ∧
      (ConstHypertrie.ofNode defaultDoubleTrait 1
        (defaultDoubleTrait.ident 1 {⟨[7], 1 / 2⟩})).getValue defaultDoubleTrait ns [7] = some 0 ∧
      (ConstHypertrie.ofNode defaultDoubleTrait 1
        (defaultDoubleTrait.ident 1 {⟨[7], 1 / 2⟩})).getRawKeyValue defaultDoubleTrait ns [7] =
          some (1 / 2) := by
  have hr : RootsOk defaultDoubleTrait {⟨1, {⟨[7], 1 / 2⟩}⟩} := by
    intro r hr
    obtain rfl := Multiset.mem_singleton.mp hr
    exact ⟨by decide, by decide, by decide +kernel, by decide +kernel⟩
  have hn : NoCollision defaultDoubleTrait {⟨1, {⟨[7], 1 / 2⟩}⟩} :=
    noCollision_of_liveSets (by decide +kernel) (by decide +kernel)
  obtain ⟨ns, hc⟩ := exists_canonical (M := AssocMap) hr hn
  have hh := hc.root_holds hn (Multiset.mem_singleton_self _)
  have hstored : ValueAt defaultDoubleTrait {⟨[7], 1 / 2⟩} [7] (1 / 2) :=
    Or.inl (Finset.mem_singleton_self _)
  have hread := ConstHypertrie.getValue_spec (hc.readable hn) hh (show [7].length = _ from rfl)
  have hraw := ConstHypertrie.getDepthNValue_spec (hc.readable hn) Nat.one_pos hh
    (show [7].length = _ from rfl)
  obtain ⟨v, hget, stored, hst, rfl⟩ := hread
  refine ⟨ns, hc, ?_, ?_⟩
  · have hconv : defaultDoubleTrait.viaSizeT (1 / 2) = 0 := by decide +kernel
    rw [hget, hst.unique hh.entrySet hstored, if_neg (by decide), hconv]
  · rw [ConstHypertrie.getRawKeyValue, if_neg (by decide)]
    exact eq_some_of_valueAt hraw hh.entrySet hstored

end Hypertrie
