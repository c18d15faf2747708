import Hypertrie.CanonicalUpdate
import Hypertrie.Slice

/-! Handles for reading. A handle holds a node of a context, or one entry of its
own that no context knows; a handle of depth 0 holds a value. -/

namespace Hypertrie

open UnorderedMap

variable {M : Type → Type → Type} [UnorderedMap M] {K V : Type}
variable [DecidableEq K] [DecidableEq V] [Inhabited K]

/-- The raw node pointer: null, a node of the context, the single-entry node of a contextless
hypertrie, or the bits of a value of depth 0. -/
inductive NodePtr (K V : Type) where
  | null
  | stored
  | unmanaged (entry : SingleEntry K V)
  | scalar (value : V)

structure ConstHypertrie (K V : Type) where
  nodeIdentifier : RawIdentifier
  nodePtr : NodePtr K V
  contextless : Bool
  managed : Bool
  depth : Nat

namespace NodePtr

/-- The entry of a contextless node. -/
def entry : NodePtr K V → Option (SingleEntry K V)
  | unmanaged entry => some entry
  | _ => none

/-- The bits of a null pointer are those of the value 0. -/
def decodeDepth0Value (t : HypertrieTrait K V) : NodePtr K V → Option V
  | null => some t.zero
  | scalar value => some value
  | _ => none

end NodePtr

namespace ConstHypertrie

variable (t : HypertrieTrait K V) (ns : NodeStorage M K V)

/-- An empty hypertrie without context. -/
def new (depth : Nat) : ConstHypertrie K V := ⟨seed, .null, true, true, depth⟩

/-- A handle for a node of the context. -/
def ofNode (depth : Nat) (nodec : RawIdentifier) : ConstHypertrie K V :=
  ⟨nodec, if nodec.isEmpty || t.inPlaceNode depth && t.isSen nodec then .null else .stored, false,
    true, depth⟩

def empty (h : ConstHypertrie K V) : Bool := h.nodeIdentifier.isEmpty

def getDepthNValue (h : ConstHypertrie K V) (key : List K) : Option V :=
  if h.contextless then
    RawHypertrieContext.getSingleEntry t h.depth h.nodeIdentifier h.nodePtr.entry key
  else RawHypertrieContext.get t ns h.depth h.nodeIdentifier key

/-- `operator[](Key)`. The value passes through a lambda that returns `size_t`. -/
def getValue (h : ConstHypertrie K V) (key : List K) : Option V :=
  if h.depth = 0 then h.nodePtr.decodeDepth0Value t
  else (h.getDepthNValue t ns key).map t.viaSizeT

/-- The handle for the result of a slice; `contextless` is that of the hypertrie sliced. -/
def ofSliceResult (contextless : Bool) (depth : Nat) : SliceResult K V → Option (ConstHypertrie K V)
  | .node nodec =>
    if nodec.isEmpty then some (new depth)
    else if contextless then some ⟨nodec, .null, true, false, depth⟩
    else some (ofNode t depth nodec)
  | .singleEntry identifier entry =>
    if identifier.isEmpty then some (new depth)
    else some ⟨identifier, .unmanaged entry, true, false, depth⟩
  | .value _ => none

/-- `operator[](SliceKey)`. -/
def getSlice (h : ConstHypertrie K V) (sliceKey : SliceKey K) : Option (ConstHypertrie K V ⊕ V) :=
  let fixedDepth := sliceKey.getFixedDepth
  if fixedDepth = 0 then
    if h.depth = 0 then (h.nodePtr.decodeDepth0Value t).map .inr else some (.inl h)
  else if fixedDepth = h.depth then (h.getValue t ns sliceKey.fixedKey).map .inr
  else if h.empty then some (.inl (new (h.depth - fixedDepth)))
  else do
    let raw := RawSliceKey.ofSliceKey sliceKey
    let sliceResult ←
      if h.contextless then
        RawHypertrieContext.sliceSingleEntry t h.depth h.nodeIdentifier h.nodePtr.entry raw
      else RawHypertrieContext.slice t ns h.depth h.nodeIdentifier raw
    (ofSliceResult t h.contextless (h.depth - fixedDepth) sliceResult).map .inl

end ConstHypertrie

section Spec

variable {t : HypertrieTrait K V} {F : Nat → Finset (SingleEntry K V) → Prop}
variable {ns : NodeStorage M K V} {h : ConstHypertrie K V} {S T : Finset (SingleEntry K V)} {d : Nat}

/-- The handle holds the set `S` of entries. -/
structure ConstHypertrie.Holds (t : HypertrieTrait K V)
    (F : Nat → Finset (SingleEntry K V) → Prop) (ns : NodeStorage M K V) (h : ConstHypertrie K V)
    (S : Finset (SingleEntry K V)) : Prop where
  entrySet : IsEntrySet t h.depth S
  empty_iff : h.empty = true ↔ S = ∅
  scalar : h.depth = 0 → ∃ v, h.nodePtr.decodeDepth0Value t = some v ∧ ValueAt t S [] v
  ident : 0 < h.depth → h.nodeIdentifier = t.ident h.depth S
  held : 0 < h.depth → h.contextless = false → Held t F ns h.depth S
  own : 0 < h.depth → h.contextless = true → S = ∅ ∨
    ∃ e, S = {e} ∧ (t.inPlaceNode h.depth = false → h.nodePtr = .unmanaged e)

omit [DecidableEq K] [DecidableEq V] in
theorem ident_singleton_ne_seed (e : SingleEntry K V) : (t.ident d {e}).isEmpty = false := by
  rw [HypertrieTrait.ident_singleton, HypertrieTrait.encodeSingleEntry_eq,
    HypertrieTrait.isEmpty_tagAsSen]

theorem Held.isEmpty_iff (hF : InPlay t F) (h : Held t F ns d S) :
    (t.ident d S).isEmpty = true ↔ S = ∅ := by
  rcases S.eq_empty_or_nonempty with rfl | hne
  · simp [RawIdentifier.isEmpty]
  rcases h with ⟨hS, -⟩ | ⟨-, e, rfl⟩
  · have hseed := hF.ident_ne_seed (hS hne) hne
    simp [RawIdentifier.isEmpty, hseed, hne.ne_empty]
  · simp [ident_singleton_ne_seed]

namespace ConstHypertrie

omit [DecidableEq K] [DecidableEq V] in
theorem holds_new (hd : 0 < d) : (new d : ConstHypertrie K V).Holds t F ns ∅ :=
  ⟨IsEntrySet.empty t d, by simp [new, ConstHypertrie.empty, RawIdentifier.isEmpty],
    fun h0 => absurd h0 hd.ne', fun _ => HypertrieTrait.ident_empty.symm,
    fun _ _ => Or.inl ⟨fun hn => by simp at hn, stored_empty⟩, fun _ _ => Or.inl rfl⟩

theorem holds_ofNode (hF : InPlay t F) (hd : 0 < d) (hset : IsEntrySet t d S)
    (hS : Held t F ns d S) : (ofNode t d (t.ident d S)).Holds t F ns S :=
  ⟨hset, hS.isEmpty_iff hF, fun h0 => absurd h0 hd.ne', fun _ => rfl, fun _ _ => hS,
    fun _ hc => Bool.noConfusion hc⟩

theorem getDepthNValue_spec (hr : Readable t F ns) (hd : 0 < h.depth) (hh : h.Holds t F ns S)
    {key : List K} (hl : key.length = h.depth) :
    Ensures (h.getDepthNValue t ns key) (ValueAt t S key) := by
  unfold getDepthNValue
  rw [hh.ident hd]
  cases hc : h.contextless with
  | false => exact get_of_held hr hd hh.entrySet (hh.held hd hc) hl
  | true =>
    rw [if_pos rfl]
    rcases hh.own hd hc with rfl | ⟨e, rfl, he⟩
    · rw [HypertrieTrait.ident_empty]
      exact Ensures.pure (Or.inr ⟨rfl, by simp⟩)
    · refine getSingleEntry_spec hh.entrySet (fun hp => ?_) hl
      rw [he hp]
      rfl

/-- Reading by key: what is stored, through `size_t`. -/
theorem getValue_spec (hr : Readable t F ns) (hh : h.Holds t F ns S) {key : List K}
    (hl : key.length = h.depth) : Ensures (h.getValue t ns key)
      (fun v => ∃ stored, ValueAt t S key stored ∧
        v = if h.depth = 0 then stored else t.viaSizeT stored) := by
  unfold getValue
  by_cases h0 : h.depth = 0
  · obtain ⟨v, hv, hval⟩ := hh.scalar h0
    rw [h0] at hl
    rw [if_pos h0, hv, List.length_eq_zero_iff.mp hl]
    exact Ensures.pure ⟨v, hval, (if_pos h0).symm⟩
  · rw [if_neg h0]
    refine Ensures.map ((getDepthNValue_spec hr (by omega) hh hl).mono fun v hv => ?_)
    exact ⟨v, hv, (if_neg h0).symm⟩

/-- What a slice of depth `d` returns for the set `T`. -/
def ResultHolds (t : HypertrieTrait K V) (F : Nat → Finset (SingleEntry K V) → Prop)
    (ns : NodeStorage M K V) (d : Nat) (T : Finset (SingleEntry K V)) :
    ConstHypertrie K V ⊕ V → Prop
  | .inl h => 0 < d ∧ h.depth = d ∧ h.Holds t F ns T
  | .inr v => d = 0 ∧ ValueAt t T [] v

omit [DecidableEq K] [DecidableEq V] in
/-- A handle with an entry of its own. -/
theorem holds_own (managed : Bool) (hd : 0 < d) {e : SingleEntry K V} (hset : IsEntrySet t d {e})
    {ptr : NodePtr K V} (hp : t.inPlaceNode d = false → ptr = .unmanaged e) :
    (⟨t.ident d {e}, ptr, true, managed, d⟩ : ConstHypertrie K V).Holds t F ns {e} :=
  ⟨hset, by simp [ConstHypertrie.empty, ident_singleton_ne_seed], fun h0 => absurd h0 hd.ne',
    fun _ => rfl, fun _ hc => Bool.noConfusion hc, fun _ _ => Or.inr ⟨e, rfl, hp⟩⟩

theorem ofSliceResult_spec (hF : InPlay t F) (hd : 0 < d) (hset : IsEntrySet t d T)
    {res : SliceResult K V} (hres : res.Holds t F ns d T) :
    Ensures (ofSliceResult t false d res) (fun h => h.depth = d ∧ h.Holds t F ns T) := by
  cases res with
  | value v =>
    obtain ⟨h0, -⟩ := hres
    omega
  | singleEntry identifier entry =>
    obtain ⟨-, hp, rfl, rfl⟩ := hres
    rw [ofSliceResult, if_neg (by simp [ident_singleton_ne_seed])]
    exact Ensures.pure ⟨rfl, holds_own false hd hset fun _ => rfl⟩
  | node nodec =>
    obtain ⟨-, rfl, hheld⟩ := hres
    rw [ofSliceResult]
    by_cases he : (t.ident d T).isEmpty = true
    · rw [if_pos he, (hheld.isEmpty_iff hF).mp he]
      exact Ensures.pure ⟨rfl, holds_new hd⟩
    · rw [if_neg he]
      exact Ensures.pure ⟨rfl, holds_ofNode hF hd hset hheld⟩

omit [DecidableEq K] [DecidableEq V] in
theorem ofSliceResult_own (hd : 0 < d) (hset : IsEntrySet t d T) {res : SliceResult K V}
    (hres : res.HoldsOwn t d T) :
    Ensures (ofSliceResult t true d res) (fun h => h.depth = d ∧ h.Holds t F ns T) := by
  cases res with
  | value v =>
    obtain ⟨h0, -⟩ := hres
    omega
  | singleEntry identifier entry =>
    obtain ⟨-, hp, rfl, rfl⟩ := hres
    rw [ofSliceResult, if_neg (by simp [ident_singleton_ne_seed])]
    exact Ensures.pure ⟨rfl, holds_own false hd hset fun _ => rfl⟩
  | node nodec =>
    obtain ⟨-, rfl, rfl | ⟨hp, e, rfl⟩⟩ := hres
    · rw [ofSliceResult, HypertrieTrait.ident_empty, if_pos (by simp [RawIdentifier.isEmpty])]
      exact Ensures.pure ⟨rfl, holds_new hd⟩
    · rw [ofSliceResult, if_neg (by simp [ident_singleton_ne_seed])]
      refine Ensures.pure ⟨rfl, holds_own false hd hset fun hn => ?_⟩
      rw [hp] at hn
      cases hn

/-- A slice that leaves a position open, or fixes none. -/
theorem getSlice_open (hr : Readable t F ns) (hh : h.Holds t F ns S) {sliceKey : SliceKey K}
    (hl : sliceKey.length = h.depth) (hd : 0 < h.depth) (hopen : sliceKey.getFixedDepth ≠ h.depth) :
    Ensures (h.getSlice t ns sliceKey) (fun res => ∃ h', res = .inl h' ∧
      h'.depth = h.depth - sliceKey.getFixedDepth ∧ h'.Holds t F ns (sliceKey.sliceSet S)) := by
  have hle := SliceKey.getFixedDepth_le sliceKey
  unfold getSlice
  by_cases h0 : sliceKey.getFixedDepth = 0
  · rw [if_pos h0, if_neg hd.ne', SliceKey.sliceSet_of_none h0, h0, Nat.sub_zero]
    exact Ensures.pure ⟨h, rfl, rfl, hh⟩
  have hset := SliceKey.isEntrySet_sliceSet hh.entrySet hl
  have hd' : 0 < h.depth - sliceKey.getFixedDepth := by omega
  rw [if_neg h0, if_neg hopen]
  by_cases he : h.empty = true
  · rw [if_pos he, hh.empty_iff.mp he, SliceKey.sliceSet_empty]
    exact Ensures.pure ⟨_, rfl, rfl, holds_new hd'⟩
  rw [if_neg he, hh.ident hd]
  cases hc : h.contextless with
  | false =>
    refine Ensures.bind (slice_spec hr hd hh.entrySet (hh.held hd hc) hl) fun res hres => ?_
    exact Ensures.map ((ofSliceResult_spec hr.inPlay hd' hset hres).mono fun h' hh' => ⟨h', rfl, hh'⟩)
  | true =>
    rcases hh.own hd hc with rfl | ⟨e, rfl, hptr⟩
    · exact absurd (hh.empty_iff.mpr rfl) he
    · refine Ensures.bind (sliceSingleEntry_spec hh.entrySet (fun hp => ?_) hl hd
        fun hz => absurd hz h0) fun res hres => ?_
      · rw [hptr hp]
        rfl
      · exact Ensures.map ((ofSliceResult_own hd' hset hres).mono fun h' hh' => ⟨h', rfl, hh'⟩)

/-- A slice with all positions fixed. -/
theorem getSlice_all (hr : Readable t F ns) (hh : h.Holds t F ns S) {sliceKey : SliceKey K}
    (hl : sliceKey.length = h.depth) (hall : sliceKey.getFixedDepth = h.depth) :
    Ensures (h.getSlice t ns sliceKey) (fun res => ∃ stored, ValueAt t S sliceKey.fixedKey stored ∧
      res = .inr (if h.depth = 0 then stored else t.viaSizeT stored)) := by
  have hkey : sliceKey.fixedKey.length = h.depth := by simp [SliceKey.fixedKey, hl]
  unfold getSlice
  by_cases h0 : sliceKey.getFixedDepth = 0
  · have hd0 : h.depth = 0 := by omega
    obtain ⟨v, hv, hval⟩ := hh.scalar hd0
    rw [hd0] at hkey
    rw [if_pos h0, if_pos hd0, hv, List.length_eq_zero_iff.mp hkey]
    exact Ensures.pure ⟨v, hval, by rw [if_pos hd0]⟩
  · rw [if_neg h0, if_pos hall]
    refine Ensures.map ((getValue_spec hr hh hkey).mono ?_)
    rintro _ ⟨stored, hst, rfl⟩
    exact ⟨stored, hst, rfl⟩

end ConstHypertrie

end Spec

section SliceProperty

open ConstHypertrie

variable {t : HypertrieTrait K V} {F : Nat → Finset (SingleEntry K V) → Prop}
variable {ns : NodeStorage M K V} {roots : Multiset (Root K V)} {h : ConstHypertrie K V}
  {S : Finset (SingleEntry K V)} {sliceKey : SliceKey K}

/-- Two results of slicing stand for the same set. -/
def SameResult (t : HypertrieTrait K V) (F : Nat → Finset (SingleEntry K V) → Prop)
    (ns : NodeStorage M K V) : ConstHypertrie K V ⊕ V → ConstHypertrie K V ⊕ V → Prop
  | .inl h, .inl h' => h.depth = h'.depth ∧ ∃ T, h.Holds t F ns T ∧ h'.Holds t F ns T
  | .inr v, .inr v' => v = v'
  | _, _ => False

/-- Slicing a handle of the set `S` filters and projects: the raw slice of its node, the slice of
the handle, and a second slice of each of them. -/
structure SliceRight (t : HypertrieTrait K V) (F : Nat → Finset (SingleEntry K V) → Prop)
    (ns : NodeStorage M K V) (h : ConstHypertrie K V) (S : Finset (SingleEntry K V))
    (sliceKey : SliceKey K) : Prop where
  raw : 0 < h.depth → h.contextless = false →
    Ensures (RawHypertrieContext.slice t ns h.depth h.nodeIdentifier (.ofSliceKey sliceKey))
      (fun res => res.Holds t F ns (h.depth - sliceKey.getFixedDepth) (sliceKey.sliceSet S) ∧
        ∀ second : SliceKey K, second.length = h.depth - sliceKey.getFixedDepth → 0 < second.length →
          Ensures (RawHypertrieContext.sliceAgain t ns (h.depth - sliceKey.getFixedDepth)
              (.ofSliceKey second) res)
            (SliceResult.Holds t F ns (h.depth - (sliceKey.compose second).getFixedDepth)
              ((sliceKey.compose second).sliceSet S)))
  slice : Ensures (h.getSlice t ns sliceKey)
    (ResultHolds t F ns (h.depth - sliceKey.getFixedDepth) (sliceKey.sliceSet S))
  again : Ensures (h.getSlice t ns sliceKey) (fun res => ∀ h', res = .inl h' →
    ∀ second : SliceKey K, second.length = h'.depth → ∃ res₁ res₂,
      h'.getSlice t ns second = some res₁ ∧ h.getSlice t ns (sliceKey.compose second) = some res₂ ∧
      SameResult t F ns res₁ res₂)

/-- The handle of a root holds its set. -/
theorem Canonical.root_holds (hc : Canonical t ns roots) (hn : NoCollision t roots) {r : Root K V}
    (hr : r ∈ roots) :
    (ofNode t r.depth (t.ident r.depth r.entries)).Holds t (Live roots) ns r.entries :=
  holds_ofNode (hn.inPlay hc.rootsOk) (hc.rootsOk r hr).1 (hc.rootsOk r hr).2
    (Or.inl ⟨fun hne => .root hr hne, hc.stored hn hr⟩)

theorem rawSlice_right (hr : Readable t F ns) (hh : h.Holds t F ns S)
    (hl : sliceKey.length = h.depth) (hd : 0 < h.depth) (hctx : h.contextless = false) :
    Ensures (RawHypertrieContext.slice t ns h.depth h.nodeIdentifier (.ofSliceKey sliceKey))
      (fun res => res.Holds t F ns (h.depth - sliceKey.getFixedDepth) (sliceKey.sliceSet S) ∧
        ∀ second : SliceKey K, second.length = h.depth - sliceKey.getFixedDepth → 0 < second.length →
          Ensures (RawHypertrieContext.sliceAgain t ns (h.depth - sliceKey.getFixedDepth)
              (.ofSliceKey second) res)
            (SliceResult.Holds t F ns (h.depth - (sliceKey.compose second).getFixedDepth)
              ((sliceKey.compose second).sliceSet S))) := by
  rw [hh.ident hd]
  refine (slice_spec hr hd hh.entrySet (hh.held hd hctx) hl).mono fun res hres => ⟨hres, ?_⟩
  intro second hl₂ hpos
  have hset := SliceKey.isEntrySet_sliceSet hh.entrySet hl
  have hagain := sliceAgain_spec hr (by omega) hset hres hl₂
  rwa [Nat.sub_sub, ← SliceKey.getFixedDepth_compose (by omega),
    ← SliceKey.sliceSet_compose fun e he => (hh.entrySet.length e he).trans hl.symm] at hagain

theorem sliceAgain_same (hr : Readable t F ns) (hh : h.Holds t F ns S)
    (hl : sliceKey.length = h.depth) : Ensures (h.getSlice t ns sliceKey) (fun res => ∀ h',
      res = .inl h' → ∀ second : SliceKey K, second.length = h'.depth → ∃ res₁ res₂,
        h'.getSlice t ns second = some res₁ ∧ h.getSlice t ns (sliceKey.compose second) = some res₂ ∧
        SameResult t F ns res₁ res₂) := by
  have hle := SliceKey.getFixedDepth_le sliceKey
  by_cases hall : sliceKey.getFixedDepth = h.depth
  · refine (getSlice_all hr hh hl hall).mono ?_
    rintro _ ⟨stored, -, rfl⟩ h' he
    cases he
  have hd : 0 < h.depth := by omega
  refine (getSlice_open hr hh hl hd hall).mono ?_
  rintro _ ⟨h', rfl, hdepth, hh'⟩ _ he second hl₂
  obtain rfl := Sum.inl.inj he
  have hle₂ := SliceKey.getFixedDepth_le second
  have hfixed := SliceKey.getFixedDepth_compose
    (show second.length = sliceKey.length - sliceKey.getFixedDepth by omega)
  have hlc : (sliceKey.compose second).length = h.depth := (SliceKey.length_compose _ _).trans hl
  have hset : (sliceKey.compose second).sliceSet S = second.sliceSet (sliceKey.sliceSet S) :=
    SliceKey.sliceSet_compose fun e he => (hh.entrySet.length e he).trans hl.symm
  by_cases hall₂ : second.getFixedDepth = h'.depth
  · obtain ⟨res₁, h₁, v₁, hv₁, rfl⟩ := getSlice_all hr hh' hl₂ hall₂
    obtain ⟨res₂, h₂, v₂, hv₂, rfl⟩ := getSlice_all hr hh hlc (by omega)
    refine ⟨_, _, h₁, h₂, ?_⟩
    have hslice₁ := valueAt_sliceSet (fun e he => (hh'.entrySet.length e he).trans hl₂.symm)
      (by omega) hv₁
    have hslice₂ := valueAt_sliceSet (fun e he => (hh.entrySet.length e he).trans hlc.symm)
      (by omega) hv₂
    rw [hset] at hslice₂
    have hv := hslice₁.unique (SliceKey.isEntrySet_sliceSet hh'.entrySet hl₂) hslice₂
    show (if h'.depth = 0 then v₁ else t.viaSizeT v₁) = if h.depth = 0 then v₂ else t.viaSizeT v₂
    rw [if_neg (by omega), if_neg hd.ne', hv]
  · obtain ⟨res₁, h₁, h'', rfl, hdepth₁, hh''⟩ := getSlice_open hr hh' hl₂ (by omega) hall₂
    obtain ⟨res₂, h₂, h₃, rfl, hdepth₂, hh₃⟩ := getSlice_open hr hh hlc hd (by omega)
    rw [hset] at hh₃
    exact ⟨_, _, h₁, h₂, by omega, _, hh'', hh₃⟩

/-- Slicing is right unless every position is fixed and the value that is stored does not survive
the conversion to `size_t`. -/
theorem sliceRight_iff (hc : Canonical t ns roots) (hn : NoCollision t roots)
    (hh : h.Holds t (Live roots) ns S) (hl : sliceKey.length = h.depth) :
    SliceRight t (Live roots) ns h S sliceKey ↔
      (0 < h.depth → sliceKey.getFixedDepth = h.depth →
        ∀ e ∈ S, e.key = sliceKey.fixedKey → t.viaSizeT e.value = e.value) := by
  have hr := hc.readable hn
  have hlen : ∀ e ∈ S, e.key.length = sliceKey.length :=
    fun e he => (hh.entrySet.length e he).trans hl.symm
  constructor
  · intro hright hd hall e he hkey
    obtain ⟨res, hres, hholds⟩ := hright.slice
    obtain ⟨res', hres', stored, hst, rfl⟩ := getSlice_all hr hh hl hall
    rw [hres, Option.some.injEq] at hres'
    rw [hres', if_neg hd.ne'] at hholds
    have hes : ValueAt t S sliceKey.fixedKey e.value := Or.inl (by rw [← hkey]; exact he)
    have hslice := valueAt_sliceSet hlen (by omega) hes
    rw [hst.unique hh.entrySet hes] at hholds
    exact hholds.2.unique (SliceKey.isEntrySet_sliceSet hh.entrySet hl) hslice
  · intro hcond
    refine ⟨fun hd hctx => rawSlice_right hr hh hl hd hctx, ?_, sliceAgain_same hr hh hl⟩
    by_cases hall : sliceKey.getFixedDepth = h.depth
    · refine (getSlice_all hr hh hl hall).mono ?_
      rintro _ ⟨stored, hst, rfl⟩
      have hvalue : (if h.depth = 0 then stored else t.viaSizeT stored) = stored := by
        by_cases h0 : h.depth = 0
        · rw [if_pos h0]
        rw [if_neg h0]
        rcases hst with hmem | ⟨rfl, -⟩
        · exact hcond (by omega) hall _ hmem rfl
        · exact t.viaSizeT_zero
      rw [hvalue]
      exact ⟨by omega, valueAt_sliceSet hlen (by omega) hst⟩
    · have hle := SliceKey.getFixedDepth_le sliceKey
      refine (getSlice_open hr hh hl (by omega) hall).mono ?_
      rintro _ ⟨h', rfl, hdepth, hh'⟩
      exact ⟨by omega, hdepth, hh'⟩

/-- The value 2 survives the conversion. -/
theorem sliceRight_iff_two : ∃ ns : NodeStorage AssocMap (BitVec 64) Rat,
    SliceRight defaultDoubleTrait (Live {⟨1, {⟨[7], 2⟩}⟩}) ns
      (ofNode defaultDoubleTrait 1 (defaultDoubleTrait.ident 1 {⟨[7], 2⟩})) {⟨[7], 2⟩} [some 7] := by
  have hr : RootsOk defaultDoubleTrait {⟨1, {⟨[7], 2⟩}⟩} := by
    intro r hr
    obtain rfl := Multiset.mem_singleton.mp hr
    exact ⟨by decide, by decide, by decide +kernel, by decide +kernel⟩
  have hn : NoCollision defaultDoubleTrait {⟨1, {⟨[7], 2⟩}⟩} :=
    noCollision_of_liveSets (by decide +kernel) (by decide +kernel)
  obtain ⟨ns, hc⟩ := exists_canonical (M := AssocMap) hr hn
  have hh := hc.root_holds hn (Multiset.mem_singleton_self _)
  refine ⟨ns, (sliceRight_iff hc hn hh rfl).mpr fun _ _ e he _ => ?_⟩
  rw [Finset.mem_singleton.mp he]
  rfl

/-- The value 1/2 is read as 0 when the only position is fixed. -/
theorem slice_half_wrong : ∃ ns : NodeStorage AssocMap (BitVec 64) Rat,
    Canonical defaultDoubleTrait ns {⟨1, {⟨[7], 1 / 2⟩}⟩} ∧
      (ofNode defaultDoubleTrait 1 (defaultDoubleTrait.ident 1 {⟨[7], 1 / 2⟩})).getSlice
        defaultDoubleTrait ns [some 7] = some (.inr 0) ∧
      ¬ SliceRight defaultDoubleTrait (Live {⟨1, {⟨[7], 1 / 2⟩}⟩}) ns
        (ofNode defaultDoubleTrait 1 (defaultDoubleTrait.ident 1 {⟨[7], 1 / 2⟩})) {⟨[7], 1 / 2⟩}
        [some 7] := by
  have hr : RootsOk defaultDoubleTrait {⟨1, {⟨[7], 1 / 2⟩}⟩} := by
    intro r hr
    obtain rfl := Multiset.mem_singleton.mp hr
    exact ⟨by decide, by decide, by decide +kernel, by decide +kernel⟩
  have hn : NoCollision defaultDoubleTrait {⟨1, {⟨[7], 1 / 2⟩}⟩} :=
    noCollision_of_liveSets (by decide +kernel) (by decide +kernel)
  obtain ⟨ns, hc⟩ := exists_canonical (M := AssocMap) hr hn
  have hh := hc.root_holds hn (Multiset.mem_singleton_self _)
  have hdepth : (ofNode defaultDoubleTrait 1
      (defaultDoubleTrait.ident 1 {⟨[7], 1 / 2⟩})).depth ≠ 0 := Nat.one_ne_zero
  have hread := getSlice_all (hc.readable hn) hh (show [some 7].length = _ from rfl) rfl
  obtain ⟨res, hres, stored, hst, rfl⟩ := hread
  have hhalf : ValueAt defaultDoubleTrait {⟨[7], 1 / 2⟩} (SliceKey.fixedKey [some 7]) (1 / 2) :=
    Or.inl (Finset.mem_singleton_self _)
  have hconv : defaultDoubleTrait.viaSizeT (1 / 2) = 0 := by decide +kernel
  rw [hst.unique hh.entrySet hhalf, if_neg hdepth, hconv] at hres
  refine ⟨ns, hc, hres, fun hright => ?_⟩
  obtain ⟨res', hres', hholds⟩ := hright.slice
  rw [hres, Option.some.injEq] at hres'
  rw [← hres'] at hholds
  have hzero : ValueAt defaultDoubleTrait {⟨[], 1 / 2⟩} [] (0 : Rat) := hholds.2
  rcases hzero with hmem | ⟨-, hno⟩
  · have := congrArg SingleEntry.value (Finset.mem_singleton.mp hmem)
    norm_num at this
  · exact hno _ (Finset.mem_singleton_self _) rfl

end SliceProperty

end Hypertrie
