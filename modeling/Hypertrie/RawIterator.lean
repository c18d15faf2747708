import Hypertrie.HashDiagonal

/-! Iterating over all entries of a hypertrie. The iterator descends at the last
position of each node and keeps one iterator over children for each depth. -/

namespace Hypertrie

open UnorderedMap

variable {M : Type → Type → Type} [UnorderedMap M] {K V : Type}
variable [DecidableEq K] [DecidableEq V] [Inhabited K]

/-- `iters` has for each depth the children from the current one on. `activeIter` is 0 for the
iterator over a single entry. -/
structure RawIterator (K V : Type) where
  key : List K
  value : V
  iters : Nat → List (K × (V ⊕ RawIdentifier))
  activeIter : Nat
  ended : Bool

namespace RawIterator

variable (t : HypertrieTrait K V) (ns : NodeStorage M K V)

def new (depth : Nat) : RawIterator K V :=
  ⟨List.replicate depth default, t.one, fun _ => [], 0, true⟩

/-- An entry overwrites the front of the key. The value of a bool-valued entry is not stored. -/
def writeEntry (it : RawIterator K V) (e : SingleEntry K V) : RawIterator K V :=
  { it with
    key := e.key ++ it.key.drop e.key.length
    value := if t.isBoolValued then it.value else e.value }

/-- `write_compressed`: the child is a single-entry node. -/
def writeCompressed (nodeDepth : Nat) (id : RawIdentifier) (it : RawIterator K V) :
    Option (RawIterator K V) :=
  if t.inPlaceNode nodeDepth then some { it with key := it.key.set 0 (keyAt (t.getEntry id).key 0) }
  else (RawHypertrieContext.storedEntry ns nodeDepth id).map (it.writeEntry t)

/-- Writes what the iterator of depth `nodeDepth + 1` points at; `initFn` goes on at a full node
of depth `nodeDepth`. -/
def writeCurrent (initFn : FullNode M K V → RawIterator K V → Option (RawIterator K V))
    (nodeDepth : Nat) (it : RawIterator K V) : Option (RawIterator K V) := do
  let (keyPart, child) ← (it.iters (nodeDepth + 1)).head?
  let it := { it with key := it.key.set nodeDepth keyPart }
  match child with
  | .inl v => some { it with value := if t.isBoolValued then it.value else v }
  | .inr id =>
    if t.isFn id then do
      let node ← find (ns.fns nodeDepth) id
      initFn node it
    else writeCompressed t ns nodeDepth id it

/-- `init_fn_rek`. -/
def initFnRek : Nat → FullNode M K V → RawIterator K V → Option (RawIterator K V)
  | 0, _, _ => none
  | depth + 1, node, it =>
    writeCurrent t ns (initFnRek depth) depth
      { it with
        activeIter := depth + 1
        iters := Function.update it.iters (depth + 1) (node.children (depth + 1) depth) }

/-- `inc_rek` at depth `currentDepth + 1`; above the depth of the hypertrie it has ended. -/
def incRek : Nat → Nat → RawIterator K V → Option (RawIterator K V)
  | 0, _, it => some { it with ended := true }
  | levels + 1, currentDepth, it =>
    let it := { it with
      activeIter := currentDepth + 1
      iters := Function.update it.iters (currentDepth + 1) (it.iters (currentDepth + 1)).tail }
    if (it.iters (currentDepth + 1)).isEmpty then incRek levels (currentDepth + 1) it
    else writeCurrent t ns (initFnRek t ns currentDepth) currentDepth it

def inc (depth : Nat) (it : RawIterator K V) : Option (RawIterator K V) :=
  if it.activeIter = 0 then some { it with ended := true }
  else incRek t ns (depth + 1 - it.activeIter) (it.activeIter - 1) it

/-- The iterator over a single-entry node; `entry` is what the node pointer leads to. -/
def ofSingleEntry (depth : Nat) (nodec : RawIdentifier) (entry : Option (SingleEntry K V)) :
    Option (RawIterator K V) :=
  let it := { new t depth with ended := false }
  if t.inPlaceNode depth then
    some { it with key := it.key.set (depth - 1) (keyAt (t.getEntry nodec).key 0) }
  else entry.map (it.writeEntry t)

def ofFullNode (depth : Nat) (nodec : RawIdentifier) : Option (RawIterator K V) := do
  let node ← find (ns.fns depth) nodec
  initFnRek t ns depth node { new t depth with ended := false }

/-- All entries from the current one on, with at most so many increments. -/
def iterate (depth : Nat) : Nat → RawIterator K V → Option (List (SingleEntry K V))
  | 0, it => if it.ended then some [] else none
  | fuel + 1, it =>
    if it.ended then some []
    else do
      let next ← it.inc t ns depth
      let rest ← iterate depth fuel next
      some (⟨it.key, it.value⟩ :: rest)

end RawIterator

namespace ConstHypertrie

variable (t : HypertrieTrait K V) (ns : NodeStorage M K V)

/-- `begin`. -/
def iterator (h : ConstHypertrie K V) : Option (RawIterator K V) :=
  if h.empty then some (.new t h.depth)
  else if h.contextless then RawIterator.ofSingleEntry t h.depth h.nodeIdentifier h.nodePtr.entry
  else if t.isSen h.nodeIdentifier then
    RawIterator.ofSingleEntry t h.depth h.nodeIdentifier
      (RawHypertrieContext.storedEntry ns h.depth h.nodeIdentifier)
  else RawIterator.ofFullNode t ns h.depth h.nodeIdentifier

/-- What a loop over the hypertrie delivers. There are as many entries as its size says. -/
def entries (h : ConstHypertrie K V) : Option (List (SingleEntry K V)) := do
  let it ← h.iterator t ns
  let size ← h.size t ns
  it.iterate t ns h.depth size

end ConstHypertrie

section Spec

variable {t : HypertrieTrait K V} {F : Nat → Finset (SingleEntry K V) → Prop}
variable {ns : NodeStorage M K V} {depth d : Nat} {S : Finset (SingleEntry K V)}

namespace RawIterator

variable {it it' it'' : RawIterator K V} {L L' : List (SingleEntry K V)} {e : SingleEntry K V}

/-- Only what belongs to depths up to `d` has changed. -/
structure SameAbove (t : HypertrieTrait K V) (d : Nat) (it it' : RawIterator K V) : Prop where
  length : it'.key.length = it.key.length
  key : it'.key.drop d = it.key.drop d
  iters : ∀ d', d < d' → it'.iters d' = it.iters d'
  ended : it'.ended = it.ended
  value : t.isBoolValued = true → it'.value = it.value

omit [DecidableEq K] [DecidableEq V] [Inhabited K] in
theorem SameAbove.refl (d : Nat) (it : RawIterator K V) : SameAbove t d it it :=
  ⟨rfl, rfl, fun _ _ => rfl, rfl, fun _ => rfl⟩

omit [DecidableEq K] [DecidableEq V] [Inhabited K] in
theorem SameAbove.trans (h : SameAbove t d it it') (h' : SameAbove t d it' it'') :
    SameAbove t d it it'' :=
  ⟨h'.length.trans h.length, h'.key.trans h.key, fun d' hd => (h'.iters d' hd).trans (h.iters d' hd),
    h'.ended.trans h.ended, fun hb => (h'.value hb).trans (h.value hb)⟩

omit [DecidableEq K] [DecidableEq V] [Inhabited K] in
theorem SameAbove.mono {d' : Nat} (h : SameAbove t d it it') (hd : d ≤ d') :
    SameAbove t d' it it' := by
  refine ⟨h.length, ?_, fun d'' hd' => h.iters d'' (hd.trans_lt hd'), h.ended, h.value⟩
  have := congrArg (List.drop (d' - d)) h.key
  rwa [List.drop_drop, List.drop_drop, Nat.add_sub_cancel' hd] at this

/-- The entry at the front of the key. -/
def front (d : Nat) (it : RawIterator K V) : SingleEntry K V := ⟨it.key.take d, it.value⟩

/-- From this state on, incrementing runs through the entries of the list at depths up to `d`, and
then goes on above `d`. -/
inductive Walk (t : HypertrieTrait K V) (ns : NodeStorage M K V) (depth d : Nat) :
    RawIterator K V → List (SingleEntry K V) → Prop where
  | last {it it' : RawIterator K V} (hact : it.activeIter ≠ 0) (hsame : SameAbove t d it it')
      (hinc : it.inc t ns depth = incRek t ns (depth - d) d it') : Walk t ns depth d it [it.front d]
  | step {it it' : RawIterator K V} {rest : List (SingleEntry K V)} (hact : it.activeIter ≠ 0)
      (hsame : SameAbove t d it it') (hinc : it.inc t ns depth = some it')
      (hrest : Walk t ns depth d it' rest) : Walk t ns depth d it (it.front d :: rest)

/-- The list has each entry of the set once. -/
def Lists (S : Finset (SingleEntry K V)) (L : List (SingleEntry K V)) : Prop :=
  L.Nodup ∧ ∀ e, e ∈ L ↔ e ∈ S

/-- The entry with a key part behind its key. -/
def snoc (keyPart : K) (e : SingleEntry K V) : SingleEntry K V := ⟨e.key ++ [keyPart], e.value⟩

/-- After the last entry of a child, the walk goes on with the next child, or above. -/
def GoesOn (t : HypertrieTrait K V) (ns : NodeStorage M K V) (depth d : Nat) (it : RawIterator K V)
    (L : List (SingleEntry K V)) : Prop :=
  (L = [] ∧ ∃ it', SameAbove t (d + 1) it it' ∧
    incRek t ns (depth - d) d it = incRek t ns (depth - (d + 1)) (d + 1) it') ∨
  ∃ it', SameAbove t (d + 1) it it' ∧ incRek t ns (depth - d) d it = some it' ∧
    Walk t ns depth (d + 1) it' L

omit [DecidableEq K] [Inhabited K] in
theorem take_succ_of_drop {key : List K} {keyPart : K} {rest : List K}
    (h : key.drop d = keyPart :: rest) : key.take (d + 1) = key.take d ++ [keyPart] := by
  have hlt : d < key.length := by
    by_contra hge
    rw [List.drop_eq_nil_of_le (Nat.le_of_not_lt hge)] at h
    cases h
  rw [List.drop_eq_getElem_cons hlt, List.cons.injEq] at h
  rw [List.take_succ_eq_append_getElem hlt, h.1]

omit [DecidableEq K] [DecidableEq V] in
/-- A walk through a child is a walk through its parent, whose other entries come behind. -/
theorem Walk.lift {keyPart : K} {rest : List K} {P : List (SingleEntry K V) → Prop}
    (h : Walk t ns depth d it L) (hkey : it.key.drop d = keyPart :: rest)
    (hon : ∀ it', SameAbove t d it it' → ∃ L', P L' ∧ GoesOn t ns depth d it' L') :
    ∃ L', P L' ∧ Walk t ns depth (d + 1) it (L.map (snoc keyPart) ++ L') := by
  induction h with
  | @last it it' hact hsame hinc =>
    have hfront : snoc keyPart (it.front d) = it.front (d + 1) := by
      rw [snoc, front, front, take_succ_of_drop hkey]
    obtain ⟨L', hP, ⟨rfl, it'', hsame', hgo⟩ | ⟨it'', hsame', hgo, hwalk⟩⟩ := hon it' hsame
    · refine ⟨[], hP, ?_⟩
      rw [List.map_singleton, hfront, List.append_nil]
      exact .last hact ((hsame.mono (Nat.le_succ d)).trans hsame') (hinc.trans hgo)
    · refine ⟨L', hP, ?_⟩
      rw [List.map_singleton, hfront]
      exact .step hact ((hsame.mono (Nat.le_succ d)).trans hsame') (hinc.trans hgo) hwalk
  | @step it it' rest' hact hsame hinc _ ih =>
    have hfront : snoc keyPart (it.front d) = it.front (d + 1) := by
      rw [snoc, front, front, take_succ_of_drop hkey]
    obtain ⟨L', hP, hwalk⟩ := ih (hsame.key.trans hkey) fun it'' h => hon it'' (hsame.trans h)
    refine ⟨L', hP, ?_⟩
    rw [List.map_cons, hfront]
    exact .step hact (hsame.mono (Nat.le_succ d)) hinc hwalk

omit [DecidableEq K] [DecidableEq V] in
theorem incRek_succ {levels currentDepth : Nat} {child : K × (V ⊕ RawIdentifier)}
    {rest : List (K × (V ⊕ RawIdentifier))} (h : it.iters (currentDepth + 1) = child :: rest) :
    incRek t ns (levels + 1) currentDepth it =
      if rest.isEmpty then
        incRek t ns levels (currentDepth + 1)
          { it with
            activeIter := currentDepth + 1
            iters := Function.update it.iters (currentDepth + 1) rest }
      else
        writeCurrent t ns (initFnRek t ns currentDepth) currentDepth
          { it with
            activeIter := currentDepth + 1
            iters := Function.update it.iters (currentDepth + 1) rest } := by
  rw [incRek, h, List.tail_cons]
  simp only [Function.update_self]

/-- What `writeCurrent` has to do at a child with the set `T`. -/
def WritesChild (t : HypertrieTrait K V) (ns : NodeStorage M K V) (depth d : Nat)
    (child : K × (V ⊕ RawIdentifier)) (T : Finset (SingleEntry K V)) : Prop :=
  ∀ (it : RawIterator K V) (rest : List (K × (V ⊕ RawIdentifier))),
    it.activeIter = d + 1 → it.iters (d + 1) = child :: rest → it.key.length = depth →
    (t.isBoolValued = true → it.value = t.one) →
    Ensures (writeCurrent t ns (initFnRek t ns d) d it) (fun it' =>
      SameAbove t d { it with key := it.key.set d child.1 } it' ∧
        ∃ L, Lists T L ∧ Walk t ns depth d it' L)

/-- The entries of the children, each with its key part behind. -/
def ListsChildren (S : Finset (SingleEntry K V)) (d : Nat) (children : List (K × (V ⊕ RawIdentifier)))
    (L : List (SingleEntry K V)) : Prop :=
  L.Nodup ∧ ∀ e, e ∈ L ↔ ∃ child ∈ children, ∃ e' ∈ split S d child.1, e = snoc child.1 e'

omit [DecidableEq K] [DecidableEq V] [Inhabited K] in
theorem snoc_inj {keyPart keyPart' : K} {e e' : SingleEntry K V}
    (h : snoc keyPart e = snoc keyPart' e') : keyPart = keyPart' ∧ e = e' := by
  obtain ⟨key, value⟩ := e
  obtain ⟨key', value'⟩ := e'
  simp only [snoc, SingleEntry.mk.injEq] at h
  obtain ⟨hkey, rfl⟩ := h
  obtain ⟨rfl, hlast⟩ := List.append_inj' hkey rfl
  exact ⟨List.singleton_inj.mp hlast, rfl⟩

theorem ListsChildren.cons {child : K × (V ⊕ RawIdentifier)}
    {children : List (K × (V ⊕ RawIdentifier))} (hn : ((child :: children).map Prod.fst).Nodup)
    (h : Lists (split S d child.1) L) (h' : ListsChildren S d children L') :
    ListsChildren S d (child :: children) (L.map (snoc child.1) ++ L') := by
  have hmem : ∀ e, e ∈ L.map (snoc child.1) ↔ ∃ e' ∈ split S d child.1, e = snoc child.1 e' := by
    intro e
    rw [List.mem_map]
    constructor
    · rintro ⟨e', he, rfl⟩
      exact ⟨e', (h.2 e').mp he, rfl⟩
    · rintro ⟨e', he, rfl⟩
      exact ⟨e', (h.2 e').mpr he, rfl⟩
  constructor
  · apply List.Nodup.append (h.1.map fun e e' he => (snoc_inj he).2) h'.1
    intro e he he'
    obtain ⟨e₁, -, rfl⟩ := (hmem e).mp he
    obtain ⟨child', hc, e₂, -, heq⟩ := (h'.2 _).mp he'
    rw [List.map_cons, List.nodup_cons] at hn
    apply hn.1
    rw [(snoc_inj heq).1]
    exact List.mem_map_of_mem hc
  · intro e
    rw [List.mem_append, hmem, h'.2]
    simp only [List.exists_mem_cons_iff]

/-- Walking through all children of a node. -/
theorem writeCurrent_spec (hd : d < depth) {children : List (K × (V ⊕ RawIdentifier))}
    (hn : (children.map Prod.fst).Nodup) (hne : children ≠ [])
    (hchild : ∀ child ∈ children, WritesChild t ns depth d child (split S d child.1))
    (hact : it.activeIter = d + 1) (hiters : it.iters (d + 1) = children)
    (hlen : it.key.length = depth) (hval : t.isBoolValued = true → it.value = t.one) :
    Ensures (writeCurrent t ns (initFnRek t ns d) d it) (fun it' => SameAbove t (d + 1) it it' ∧
      ∃ L, ListsChildren S d children L ∧ Walk t ns depth (d + 1) it' L) := by
  induction children generalizing it with
  | nil => exact absurd rfl hne
  | cons child children ih =>
    obtain ⟨it', hit', hsame, L, hL, hwalk⟩ :=
      hchild child List.mem_cons_self it children hact hiters hlen hval
    have hdrop : (it.key.set d child.1).drop d = child.1 :: it.key.drop (d + 1) := by
      rw [List.drop_eq_getElem_cons (by rw [List.length_set, hlen]; exact hd), List.getElem_set_self,
        List.drop_set_of_lt (Nat.lt_succ_self d)]
    have hkey : it'.key.drop d = child.1 :: it.key.drop (d + 1) := hsame.key.trans hdrop
    have habove : SameAbove t (d + 1) it it' := by
      refine ⟨hsame.length.trans (List.length_set ..), ?_, fun d' hd' =>
        hsame.iters d' ((Nat.lt_succ_self d).trans hd'), hsame.ended, hsame.value⟩
      have := congrArg List.tail hkey
      rwa [List.tail_drop, List.tail_cons] at this
    have hlevels : depth - d = depth - (d + 1) + 1 := by omega
    have hon : ∀ it'', SameAbove t d it' it'' →
        ∃ L', ListsChildren S d children L' ∧ GoesOn t ns depth d it'' L' := by
      intro it'' hsame''
      have hiters'' : it''.iters (d + 1) = child :: children :=
        (hsame''.iters (d + 1) (Nat.lt_succ_self d)).trans
          ((hsame.iters (d + 1) (Nat.lt_succ_self d)).trans hiters)
      have hinc : incRek t ns (depth - (d + 1) + 1) d it'' = _ := incRek_succ hiters''
      rw [← hlevels] at hinc
      have hupd : SameAbove t (d + 1) it''
          { it'' with
            activeIter := d + 1
            iters := Function.update it''.iters (d + 1) children } :=
        ⟨rfl, rfl, fun d' hd' => Function.update_of_ne hd'.ne' _ _, rfl, fun _ => rfl⟩
      cases hch : children with
      | nil =>
        rw [hch, List.isEmpty_nil, if_pos rfl] at hinc
        rw [hch] at hupd
        exact ⟨[], ⟨List.nodup_nil, by simp⟩, Or.inl ⟨rfl, _, hupd, hinc⟩⟩
      | cons c cs =>
        have hne' : children ≠ [] := by simp [hch]
        rw [if_neg (by simp [hch])] at hinc
        obtain ⟨it₃, hit₃, hsame₃, L', hL', hwalk'⟩ := @ih
          { it'' with
            activeIter := d + 1
            iters := Function.update it''.iters (d + 1) children }
          (List.nodup_cons.mp hn).2 hne' (fun c hc => hchild c (List.mem_cons_of_mem _ hc)) rfl
          (Function.update_self ..) (hsame''.length.trans (habove.length.trans hlen))
          (fun hb => (hsame''.value hb).trans ((habove.value hb).trans (hval hb)))
        rw [← hch]
        exact ⟨L', hL', Or.inr ⟨it₃, hupd.trans hsame₃, hinc.trans hit₃, hwalk'⟩⟩
    obtain ⟨L', hL', hwalk'⟩ := hwalk.lift hkey hon
    exact ⟨it', hit', habove, _, ListsChildren.cons hn hL hL', hwalk'⟩

omit [DecidableEq K] [DecidableEq V] [Inhabited K] in
/-- The value of an entry is what the iterator has after the entry is written. -/
theorem written_value (hset : IsEntrySet t d {e}) (hval : t.isBoolValued = true → it.value = t.one) :
    (if t.isBoolValued then it.value else e.value) = e.value := by
  split
  next hb =>
    rw [hval hb]
    exact (HypertrieTrait.eq_one_of_ne_zero hb (hset.value e (Finset.mem_singleton_self e))).symm
  next => rfl

omit [DecidableEq K] [DecidableEq V] [Inhabited K] in
theorem Lists.singleton (e : SingleEntry K V) : Lists {e} [e] :=
  ⟨List.nodup_singleton e, by simp⟩

/-- A child with a single entry. -/
theorem writeCompressed_spec (hF : InPlay t F) (hok : NodesOk t F ns d) (hd : d < depth)
    (he : F d {e}) (hst : Stored t ns d {e}) (hact : it.activeIter = d + 1)
    (hlen : it.key.length = depth) (hval : t.isBoolValued = true → it.value = t.one) :
    Ensures (writeCompressed t ns d (t.ident d {e}) it) (fun it' => SameAbove t d it it' ∧
      ∃ L, Lists {e} L ∧ Walk t ns depth d it' L) := by
  have hset := hF.entrySet he
  have hkeylen := hset.length e (Finset.mem_singleton_self e)
  have hwalk : ∀ it' : RawIterator K V, it'.activeIter = d + 1 → it'.front d = e →
      ∃ L, Lists {e} L ∧ Walk t ns depth d it' L := by
    intro it' hact' hfront
    refine ⟨[e], .singleton e, ?_⟩
    rw [← hfront]
    refine .last (by omega) (.refl d it') ?_
    rw [inc, if_neg (by omega), hact', Nat.add_sub_cancel, Nat.add_sub_add_right]
  rw [writeCompressed]
  by_cases hp : t.inPlaceNode d = true
  · obtain ⟨hb, -, rfl⟩ := HypertrieTrait.inPlaceNode_iff.mp hp
    obtain ⟨k, hk⟩ := List.length_eq_one_iff.mp hkeylen
    rw [if_pos hp, HypertrieTrait.getEntry_ident_singleton hp hset, hk]
    refine Ensures.pure ⟨⟨List.length_set .., List.drop_set_of_lt Nat.zero_lt_one, fun _ _ => rfl, rfl,
      fun _ => rfl⟩, hwalk _ hact ?_⟩
    have hvalue := written_value hset hval
    rw [if_pos hb] at hvalue
    obtain ⟨k', ks, hks⟩ : ∃ k' ks, it.key = k' :: ks :=
      List.exists_cons_of_length_pos (by omega)
    rw [front, hks]
    show (⟨[k], it.value⟩ : SingleEntry K V) = e
    rw [hvalue, ← hk]
  · rw [if_neg hp, storedEntry_of_stored hF hok he hst (by simpa using hp), Option.map_some]
    refine Ensures.pure ⟨⟨?_, ?_, fun _ _ => rfl, rfl, fun hb => ?_⟩, hwalk _ hact ?_⟩
    · rw [writeEntry, List.length_append, List.length_drop, hkeylen]
      omega
    · rw [writeEntry, ← hkeylen, List.drop_left]
    · rw [writeEntry]
      exact if_pos hb
    · rw [front, writeEntry, ← hkeylen, List.take_left, written_value hset hval]

theorem writesChild_of_value {v : V} {k : K} (hset : IsEntrySet t 1 S)
    (hv : ⟨[k], v⟩ ∈ S) : WritesChild t ns depth 0 (k, .inl v) (split S 0 k) := by
  intro it rest hact hiters hlen hval
  have hsplit : split S 0 k = {⟨[], v⟩} := by
    apply Finset.eq_singleton_iff_unique_mem.mpr
    refine ⟨mem_split.mpr ⟨_, hv, rfl, rfl⟩, ?_⟩
    intro e he
    obtain ⟨e', he', hk, rfl⟩ := mem_split.mp he
    obtain ⟨k', hk'⟩ := List.length_eq_one_iff.mp (hset.length e' he')
    have hkey : e'.key = [k] := by
      rw [hk'] at hk ⊢
      rw [show k' = k from hk]
    rw [hset.unique e' he' _ hv hkey]
    rfl
  have hset0 : IsEntrySet t 0 {⟨[], v⟩} := hsplit ▸ hset.split Nat.zero_lt_one k
  rw [writeCurrent, hiters, hsplit]
  refine Ensures.pure ⟨⟨rfl, rfl, fun _ _ => rfl, rfl, fun hb => if_pos hb⟩, _, .singleton _, ?_⟩
  have hvalue := written_value hset0 hval
  have hwalk : Walk t ns depth 0 { it with
      key := it.key.set 0 k
      value := if t.isBoolValued then it.value else v } [⟨[], if t.isBoolValued then it.value else v⟩] := by
    refine .last (by rw [hact]; exact Nat.one_ne_zero) (.refl 0 _) ?_
    rw [inc, if_neg (by rw [hact]; exact Nat.one_ne_zero), hact]
    rfl
  simp only at hvalue
  rw [hvalue] at hwalk ⊢
  exact hwalk

omit [DecidableEq K] [DecidableEq V] in
theorem snoc_subEntry (h : e.key.length = d + 1) : snoc (keyAt e.key d) (subEntry d e) = e := by
  obtain ⟨key, value⟩ := e
  have h : key.length = d + 1 := h
  have hlt : d < key.length := by omega
  have hkey : key.eraseIdx d ++ [keyAt key d] = key := by
    rw [List.eraseIdx_eq_take_drop_succ, List.drop_eq_nil_of_le h.le, List.append_nil, keyAt,
      List.getD_eq_getElem _ _ hlt, ← List.take_succ_eq_append_getElem hlt, ← h, List.take_length]
  rw [snoc, subEntry, subkey, hkey]

/-- The iterator of a full node walks through all its entries. -/
theorem initFnRek_spec (hr : Readable t F ns) (hd : d ≤ depth) (hd0 : 0 < d) (hS : F d S)
    (hc : 2 ≤ S.card) (hst : Stored t ns d S) {node : FullNode M K V}
    (hnode : find (ns.fns d) (t.ident d S) = some node) (hlen : it.key.length = depth)
    (hval : t.isBoolValued = true → it.value = t.one) :
    Ensures (initFnRek t ns d node it) (fun it' => SameAbove t d it it' ∧
      ∃ L, Lists S L ∧ Walk t ns depth d it' L) := by
  induction d generalizing S node it with
  | zero => exact absurd hd0 (lt_irrefl 0)
  | succ d ih =>
    have hF := hr.inPlay
    have hset := hF.entrySet hS
    have hrep := (hr.nodes (d + 1)).represents hF hS hnode
    have hchild : ∀ child ∈ node.children (d + 1) d,
        WritesChild t ns depth d child (split S d child.1) := by
      rintro ⟨k, child⟩ hm
      rcases hrep.children (Nat.succ_pos d) (Nat.lt_succ_self d) hm with
        ⟨h1, v, rfl, hv⟩ | ⟨h1, rfl, hne⟩
      · obtain rfl : d = 0 := by omega
        exact writesChild_of_value hset hv
      · have hT := hF.split hS hc (Nat.lt_succ_self d) h1 hne
        have hstT := hr.children (d + 1) h1 S hS hc (hst.fn hc) d (Nat.lt_succ_self d) k
        rw [Nat.add_sub_cancel] at hT hstT
        intro it rest hact hiters hlen hval
        rw [writeCurrent, hiters, Nat.add_sub_cancel]
        simp only [List.head?_cons, Option.bind_eq_bind, Option.bind_some]
        have hlen' : (it.key.set d k).length = depth := (List.length_set ..).trans hlen
        by_cases hcT : 2 ≤ (split S d k).card
        · obtain ⟨node', hnode'⟩ := contains_iff.mp (hstT.fn hcT)
          rw [if_pos ((hF.isFn_ident_iff hT).mpr hcT), hnode', Option.bind_some]
          exact ih (by omega) (by omega) hT hcT hstT hnode' hlen' hval
        · have hpos := hne.card_pos
          obtain ⟨e, he⟩ := Finset.card_eq_one.mp (show (split S d k).card = 1 by omega)
          rw [if_neg fun hf => hcT ((hF.isFn_ident_iff hT).mp hf)]
          rw [he] at hT hstT ⊢
          exact writeCompressed_spec hF (hr.nodes d) (by omega) hT hstT hact hlen' hval
    have hne : node.children (d + 1) d ≠ [] := by
      obtain ⟨e, he⟩ : S.Nonempty := Finset.card_pos.mp (by omega)
      have hkey : keyAt e.key d ∈ keyParts S d := Finset.mem_image_of_mem _ he
      have hm := hrep.mem_children hset (Nat.succ_pos d) (Nat.lt_succ_self d) hkey
      exact fun h0 => by simp [h0] at hm
    rw [initFnRek]
    let at' : RawIterator K V :=
      { it with
        activeIter := d + 1
        iters := Function.update it.iters (d + 1) (node.children (d + 1) d) }
    have hact : at'.activeIter = d + 1 := rfl
    obtain ⟨it', hit', hsame, L, hL, hwalk⟩ := writeCurrent_spec (S := S) hd
      (node.nodup_children d) hne hchild hact (Function.update_self ..) hlen hval
    refine ⟨it', hit', ⟨hsame.length, hsame.key, fun d' hd' => (hsame.iters d' hd').trans
      (Function.update_of_ne hd'.ne' _ _), hsame.ended, hsame.value⟩, L, ⟨hL.1, fun e => ?_⟩, hwalk⟩
    rw [hL.2]
    constructor
    · rintro ⟨child, -, e', he', rfl⟩
      obtain ⟨e, he, hk, rfl⟩ := mem_split.mp he'
      rw [← hk, snoc_subEntry (hset.length e he)]
      exact he
    · intro he
      obtain ⟨child, hm, hk⟩ := List.mem_map.mp (hrep.mem_children hset (Nat.succ_pos d)
        (Nat.lt_succ_self d) (Finset.mem_image_of_mem (fun e => keyAt e.key d) he))
      refine ⟨child, hm, subEntry d e, mem_split.mpr ⟨e, he, hk.symm, rfl⟩, ?_⟩
      rw [hk, snoc_subEntry (hset.length e he)]

omit [DecidableEq K] [DecidableEq V] in
theorem Walk.iterate_spec (h : Walk t ns depth depth it L) (hlen : it.key.length = depth)
    (hend : it.ended = false) : it.iterate t ns depth L.length = some L := by
  induction h with
  | @last it it' hact hsame hinc =>
    rw [Nat.sub_self, incRek] at hinc
    rw [List.length_singleton, RawIterator.iterate, if_neg (by simp [hend]), hinc]
    simp only [Option.bind_eq_bind, Option.bind_some, RawIterator.iterate, if_pos]
    rw [front, ← hlen, List.take_length]
  | @step it it' rest hact hsame hinc _ ih =>
    rw [List.length_cons, RawIterator.iterate, if_neg (by simp [hend]), hinc]
    simp only [Option.bind_eq_bind, Option.bind_some]
    rw [ih (hsame.length.trans hlen) (hsame.ended.trans hend), Option.bind_some, front, ← hlen,
      List.take_length]

omit [DecidableEq K] [DecidableEq V] in
/-- The iterator over a single entry. -/
theorem ofSingleEntry_spec (hd : 0 < depth) (hset : IsEntrySet t depth {e})
    {entry : Option (SingleEntry K V)} (hentry : t.inPlaceNode depth = false → entry = some e) :
    Ensures (ofSingleEntry t depth (t.ident depth {e}) entry)
      (fun it => it.iterate t ns depth 1 = some [e]) := by
  have hkeylen := hset.length e (Finset.mem_singleton_self e)
  have hvalue : (if t.isBoolValued then { new t depth with ended := false }.value else e.value) = e.value :=
    written_value hset fun _ => rfl
  have hiter : ∀ it : RawIterator K V, it.activeIter = 0 → it.ended = false → it.key = e.key →
      it.value = e.value → it.iterate t ns depth 1 = some [e] := by
    intro it hact hend hkey hval
    rw [RawIterator.iterate, if_neg (by simp [hend]), inc, if_pos hact]
    simp only [Option.bind_eq_bind, Option.bind_some, RawIterator.iterate, if_pos]
    rw [hkey, hval]
  rw [ofSingleEntry]
  by_cases hp : t.inPlaceNode depth = true
  · obtain ⟨hb, -, rfl⟩ := HypertrieTrait.inPlaceNode_iff.mp hp
    obtain ⟨k, hk⟩ := List.length_eq_one_iff.mp hkeylen
    simp only [if_pos hp, HypertrieTrait.getEntry_ident_singleton hp hset]
    refine Ensures.pure (hiter _ rfl rfl ?_ ?_)
    · rw [hk]
      rfl
    · rw [if_pos hb] at hvalue
      exact hvalue
  · simp only [if_neg hp, hentry (by simpa using hp), Option.map_some]
    refine Ensures.pure (hiter _ rfl rfl ?_ hvalue)
    simp [writeEntry, new, hkeylen]

end RawIterator

omit [Inhabited K] in
theorem RawIterator.Lists.length {L : List (SingleEntry K V)} (h : RawIterator.Lists S L) :
    L.length = S.card := by
  rw [← List.toFinset_card_of_nodup h.1]
  congr 1
  ext e
  rw [List.mem_toFinset, h.2]

/-- The iterator goes through the entries and has ended after as many increments. -/
theorem ConstHypertrie.iterator_spec (hr : Readable t F ns) {h : ConstHypertrie K V}
    (hh : h.Holds t F ns S) (hd : 0 < h.depth) :
    Ensures (h.iterator t ns) (fun it => ∃ L, RawIterator.Lists S L ∧
      it.iterate t ns h.depth L.length = some L) := by
  rw [ConstHypertrie.iterator, hh.ident hd]
  by_cases he : h.empty = true
  · rw [if_pos he, hh.empty_iff.mp he]
    exact Ensures.pure ⟨[], ⟨List.nodup_nil, by simp⟩, rfl⟩
  have hne : S.Nonempty := Finset.nonempty_iff_ne_empty.mpr fun h0 => he (hh.empty_iff.mpr h0)
  have hsingle : ∀ e, S = {e} → ∀ entry, (t.inPlaceNode h.depth = false → entry = some e) →
      Ensures (RawIterator.ofSingleEntry t h.depth (t.ident h.depth S) entry) (fun it =>
        ∃ L, RawIterator.Lists S L ∧ it.iterate t ns h.depth L.length = some L) := by
    rintro e rfl entry hentry
    have hspec : Ensures (RawIterator.ofSingleEntry t h.depth (t.ident h.depth {e}) entry)
        (fun it => it.iterate t ns h.depth 1 = some [e]) :=
      RawIterator.ofSingleEntry_spec hd hh.entrySet hentry
    exact hspec.mono fun it hit => ⟨[e], .singleton e, hit⟩
  rw [if_neg he]
  cases hctx : h.contextless with
  | true =>
    rcases hh.own hd hctx with rfl | ⟨e, hS, hptr⟩
    · exact absurd (hh.empty_iff.mpr rfl) he
    · rw [if_pos rfl]
      refine hsingle e hS _ fun hp => ?_
      rw [hptr hp]
      rfl
  | false =>
    rw [if_neg (by simp)]
    have hheld := hh.held hd hctx
    by_cases hs : t.isSen (t.ident h.depth S) = true
    · obtain ⟨e, he⟩ := Finset.card_eq_one.mp (HypertrieTrait.isSen_ident_iff.mp hs)
      rw [if_pos hs]
      refine hsingle e he _ fun hp => ?_
      rcases hheld with ⟨hS, hst⟩ | ⟨hp', -⟩
      · rw [he] at hS hst ⊢
        exact storedEntry_of_stored hr.inPlay (hr.nodes _) (hS (Finset.singleton_nonempty e)) hst hp
      · rw [hp'] at hp
        cases hp
    · have hcard : 2 ≤ S.card := by
        have h1 : S.card ≠ 1 := fun h1 => hs (HypertrieTrait.isSen_ident_iff.mpr h1)
        have := hne.card_pos
        omega
      rcases hheld with ⟨hS, hst⟩ | ⟨-, e, rfl⟩
      · obtain ⟨node, hnode⟩ := contains_iff.mp (hst.fn hcard)
        obtain ⟨it, hit, hsame, L, hL, hwalk⟩ := @RawIterator.initFnRek_spec _ _ _ _ _ _ _ _ _ _ _ _ _
          { RawIterator.new t h.depth with ended := false } hr le_rfl hd (hS hne) hcard hst
          _ hnode List.length_replicate fun _ => rfl
        rw [if_neg hs, RawIterator.ofFullNode, hnode]
        simp only [Option.bind_eq_bind, Option.bind_some, hit]
        have hend := hwalk.iterate_spec (hsame.length.trans List.length_replicate) hsame.ended
        exact ⟨it, rfl, L, hL, hend⟩
      · simp at hcard

/-- A loop over a hypertrie delivers each of its entries once. -/
theorem ConstHypertrie.entries_spec (hr : Readable t F ns) {h : ConstHypertrie K V}
    (hh : h.Holds t F ns S) (hd : 0 < h.depth) :
    Ensures (h.entries t ns) (RawIterator.Lists S) := by
  obtain ⟨size, hsize, rfl⟩ := ConstHypertrie.size_spec hr hh hd
  rw [ConstHypertrie.entries, hsize]
  refine Ensures.bind (ConstHypertrie.iterator_spec hr hh hd) ?_
  rintro it ⟨L, hL, hit⟩
  rw [hL.length] at hit
  exact ⟨L, hit, hL⟩

/-- The iterator over a root of a canonical storage yields its entries and then ends. -/
theorem rawIterator_enumerates {roots : Multiset (Root K V)} (hc : Canonical t ns roots)
    (hn : NoCollision t roots) (hr : ⟨d, S⟩ ∈ roots) (hne : S.Nonempty) :
    ∃ it L, (ConstHypertrie.ofNode t d (t.ident d S)).iterator t ns = some it ∧ it.ended = false ∧
      L.Nodup ∧ (∀ e, e ∈ L ↔ e ∈ S) ∧ it.iterate t ns d L.length = some L := by
  have hd : 0 < d := (hc.rootsOk _ hr).1
  obtain ⟨it, hit, L, hL, hend⟩ := ConstHypertrie.iterator_spec (hc.readable hn)
    (hc.root_holds hn hr) hd
  refine ⟨it, L, hit, ?_, hL.1, hL.2, hend⟩
  have hpos : L.length ≠ 0 := by
    rw [hL.length]
    exact hne.card_pos.ne'
  by_contra hended
  rw [Bool.not_eq_false] at hended
  obtain ⟨fuel, hfuel⟩ := Nat.exists_eq_succ_of_ne_zero hpos
  rw [hfuel, RawIterator.iterate, if_pos hended, Option.some.injEq] at hend
  rw [← hend] at hpos
  exact hpos rfl

/-- Two keys with a common part at one position and different parts at the other. -/
theorem rawIterator_enumerates_two : ∃ (ns : NodeStorage AssocMap (BitVec 64) Bool) (it : _)
    (L : List (SingleEntry (BitVec 64) Bool)),
    (ConstHypertrie.ofNode defaultBoolTrait 2
        (defaultBoolTrait.ident 2 {⟨[3, 4], true⟩, ⟨[3, 5], true⟩})).iterator defaultBoolTrait ns =
          some it ∧ it.ended = false ∧
      L.Nodup ∧ (∀ e, e ∈ L ↔ e ∈ ({⟨[3, 4], true⟩, ⟨[3, 5], true⟩} : Finset _)) ∧
      it.iterate defaultBoolTrait ns 2 L.length = some L := by
  let roots : Multiset (Root (BitVec 64) Bool) := {⟨2, {⟨[3, 4], true⟩, ⟨[3, 5], true⟩}⟩}
  have hr : RootsOk defaultBoolTrait roots := by
    intro r hr
    obtain rfl := Multiset.mem_singleton.mp hr
    exact ⟨by decide, by decide, by decide, by decide⟩
  have hn : NoCollision defaultBoolTrait roots :=
    noCollision_of_liveSets (by decide +kernel) (by decide +kernel)
  obtain ⟨ns, hc⟩ := exists_canonical (M := AssocMap) hr hn
  exact ⟨ns, rawIterator_enumerates hc hn (Multiset.mem_singleton_self _) (by decide)⟩

end Spec

end Hypertrie
