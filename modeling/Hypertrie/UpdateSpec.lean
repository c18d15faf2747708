import Hypertrie.Canonical

/-! An update from the depth of its handle down to depth 1. Above the depth in
work the storage is final, below it is as before, and what the requests for the
depth in work ask for closes the gap. -/

namespace Hypertrie

open UnorderedMap

variable {M : Type → Type → Type} [UnorderedMap M] {K V : Type}
variable [DecidableEq K] [DecidableEq V] [Inhabited K]
variable {t : HypertrieTrait K V} {F : Nat → Finset (SingleEntry K V) → Prop}
variable {ns : NodeStorage M K V} {roots : Multiset (Root K V)} {d : Nat} {ur : UpdateRequests M K V}

/-- Every node of the depth counts what leads to it. -/
def RefsOk (t : HypertrieTrait K V) (ns : NodeStorage M K V) (roots : Multiset (Root K V)) (d : Nat) :
    Prop :=
  ∀ id, Tracked t d id → ns.refCount t d id =
    NodeStorage.edgesTo (d + 1) (ns.fns (d + 1)) id + rootCount t roots d id

/-- Every stored node of the depth is referred to. -/
structure RefsPos (ns : NodeStorage M K V) (d : Nat) : Prop where
  fn : ∀ id n, find (ns.fns d) id = some n → 0 < n.refCount
  sen : ∀ id n, find (ns.sens d) id = some n → 0 < n.refCount

/-- The storage while an update is at depth `d`. -/
structure UpdateReady (t : HypertrieTrait K V) (F : Nat → Finset (SingleEntry K V) → Prop)
    (ns : NodeStorage M K V) (roots : Multiset (Root K V)) (d : Nat) (ur : UpdateRequests M K V) :
    Prop where
  nodes : ∀ d' ≤ d, NodesOk t F ns d'
  pos : ∀ d' ≤ d, RefsPos ns d'
  refs : ∀ d' < d, RefsOk t ns roots d'
  valid : ur.Valid t F ns d
  due : ∀ id, Tracked t d id → (ns.refCount t d id : Int) + ur.delta t id =
    (NodeStorage.edgesTo (d + 1) (ns.fns (d + 1)) id + rootCount t roots d id : Nat)

theorem RefsOk.childrenStored (hF : InPlay t F) (hok : NodesOk t F ns d)
    (h : 0 < d → RefsOk t ns roots (d - 1)) : ChildrenStored t F ns d := by
  rcases Nat.eq_zero_or_pos d with rfl | hd
  · exact fun h => absurd h (by omega)
  · refine childrenStored_of_refs hF hok fun id ht => ?_
    have hrefs := h hd id ht
    rw [show d - 1 + 1 = d by omega] at hrefs
    omega

theorem UpdateReady.depthReady (hF : InPlay t F) (h : UpdateReady t F ns roots d ur) (hd : 0 < d) :
    DepthReady t F ns d ur := by
  refine ⟨hF, hd, ?_, h.valid, (h.pos d le_rfl).fn, ?_, (h.pos d le_rfl).sen, ?_⟩
  · intro d' hd'
    exact ⟨h.nodes d' hd', RefsOk.childrenStored hF (h.nodes d' hd') fun h0 => h.refs _ (by omega)⟩
  · intro id n hn
    have hok := h.nodes d le_rfl
    rw [← hok.refCount_fn hF hn, h.due id (Or.inl (hok.isFn_of_find hF hn))]
    exact Int.natCast_nonneg _
  · intro id n hn
    have hok := h.nodes d le_rfl
    obtain ⟨hp, -, -⟩ := hok.sen id n hn
    rw [← hok.refCount_sen hn, h.due id (Or.inr hp)]
    exact Int.natCast_nonneg _

omit [DecidableEq K] [DecidableEq V] [Inhabited K] in
theorem NodeStorage.refCount_congr {ns' : NodeStorage M K V} {id : RawIdentifier}
    (h : ns'.fns d = ns.fns d ∧ ns'.sens d = ns.sens d) :
    ns'.refCount t d id = ns.refCount t d id := by
  unfold NodeStorage.refCount
  rw [h.1, h.2]

theorem NodesOk.congr_depth {ns' : NodeStorage M K V}
    (h : ns'.fns d = ns.fns d ∧ ns'.sens d = ns.sens d) (hok : NodesOk t F ns d) :
    NodesOk t F ns' d :=
  ⟨by rw [h.1]; exact hok.fn, by rw [h.2]; exact hok.sen⟩

omit [DecidableEq K] [DecidableEq V] [Inhabited K] in
theorem RefsPos.congr_depth {ns' : NodeStorage M K V}
    (h : ns'.fns d = ns.fns d ∧ ns'.sens d = ns.sens d) (hpos : RefsPos ns d) : RefsPos ns' d :=
  ⟨by rw [h.1]; exact hpos.fn, by rw [h.2]; exact hpos.sen⟩

/-- One depth: what was due is there, and the children of the depth are due. -/
theorem UpdateReady.step (h : UpdateReady t F ns roots (d + 1) ur)
    {res : NodeStorage M K V × UpdateRequests M K V} (hex : DepthExecuted t F ns (d + 1) ur res) :
    UpdateReady t F res.1 roots d res.2 ∧ RefsOk t res.1 roots (d + 1) := by
  have hother : ∀ d' ≤ d, res.1.fns d' = ns.fns d' ∧ res.1.sens d' = ns.sens d' :=
    fun d' hd' => hex.otherDepths d' (by omega)
  refine ⟨⟨?_, ?_, ?_, hex.valid, ?_⟩, ?_⟩
  · exact fun d' hd' => (h.nodes d' (by omega)).congr_depth (hother d' hd')
  · exact fun d' hd' => (h.pos d' (by omega)).congr_depth (hother d' hd')
  · intro d' hd' id ht
    rw [NodeStorage.refCount_congr (hother d' (by omega)), (hother (d' + 1) (by omega)).1]
    exact h.refs d' (by omega) id ht
  · intro id ht
    have hold := h.refs d (by omega) id ht
    have hd := hex.delta id ht
    rw [NodeStorage.refCount_congr (hother d le_rfl), hold]
    rw [hd]
    push_cast
    ring
  · intro id ht
    have hdue := h.due id ht
    have hrefs := hex.refs id ht
    rw [(hex.otherDepths (d + 1 + 1) (by omega)).1]
    omega

/-- What an update leaves behind: the depths it was at are right, the others as they were. -/
structure Updated (t : HypertrieTrait K V) (F : Nat → Finset (SingleEntry K V) → Prop)
    (ns : NodeStorage M K V) (roots : Multiset (Root K V)) (d : Nat) (ns' : NodeStorage M K V) :
    Prop where
  otherDepths : ∀ d', d < d' ∨ d' = 0 → ns'.fns d' = ns.fns d' ∧ ns'.sens d' = ns.sens d'
  nodes : ∀ d', 0 < d' → d' ≤ d → NodesOk t F ns' d'
  pos : ∀ d', 0 < d' → d' ≤ d → RefsPos ns' d'
  refs : ∀ d', 0 < d' → d' ≤ d → RefsOk t ns' roots d'

/-- An update each of whose depths is executed safely. -/
inductive SafeUpdate (t : HypertrieTrait K V) :
    Nat → NodeStorage M K V → UpdateRequests M K V → NodeStorage M K V → Prop where
  | done (ns : NodeStorage M K V) (ur : UpdateRequests M K V) : SafeUpdate t 0 ns ur ns
  | depth {d : Nat} {ns ns₁ ns' : NodeStorage M K V} {ur ur₁ : UpdateRequests M K V} :
      SafeDepth t ns (d + 1) ur (ns₁, ur₁) → SafeUpdate t d ns₁ ur₁ ns' →
      SafeUpdate t (d + 1) ns ur ns'

omit [DecidableEq V] in
theorem SafeUpdate.consumeAndExecute_eq {ns' : NodeStorage M K V} (h : SafeUpdate t d ns ur ns') :
    ApplyUpdate.consumeAndExecute t d ns ur = some ns' := by
  induction h with
  | done => rfl
  | depth hdepth _ ih =>
    rw [ApplyUpdate.consumeAndExecute, hdepth.executeDepth_eq]
    exact ih

theorem consumeAndExecute_spec (hF : InPlay t F) (h : UpdateReady t F ns roots d ur) :
    ∃ ns', SafeUpdate t d ns ur ns' ∧ Updated t F ns roots d ns' := by
  induction d generalizing ns ur with
  | zero =>
    exact ⟨ns, .done ns ur, fun _ _ => ⟨rfl, rfl⟩, fun d' h0 hd' => absurd hd' (by omega),
      fun d' h0 hd' => absurd hd' (by omega), fun d' h0 hd' => absurd hd' (by omega)⟩
  | succ d ih =>
    obtain ⟨res, hsafe, hex⟩ := executeDepth_safe (h.depthReady hF (by omega))
    obtain ⟨hnext, hrefs⟩ := h.step hex
    obtain ⟨ns', hrest, hu⟩ := ih hnext
    refine ⟨ns', .depth hsafe hrest, ?_⟩
    have htop : ns'.fns (d + 1) = res.1.fns (d + 1) ∧ ns'.sens (d + 1) = res.1.sens (d + 1) :=
      hu.otherDepths (d + 1) (Or.inl (by omega))
    refine ⟨?_, ?_, ?_, ?_⟩
    · intro d' hd'
      have h1 := hu.otherDepths d' (by omega)
      have h2 := hex.otherDepths d' (by omega)
      exact ⟨h1.1.trans h2.1, h1.2.trans h2.2⟩
    · intro d' h0 hd'
      rcases Nat.lt_or_ge d d' with hlt | hle
      · obtain rfl : d' = d + 1 := by omega
        exact hex.nodes.congr_depth htop
      · exact hu.nodes d' h0 hle
    · intro d' h0 hd'
      rcases Nat.lt_or_ge d d' with hlt | hle
      · obtain rfl : d' = d + 1 := by omega
        exact RefsPos.congr_depth htop ⟨hex.fn_pos, hex.sen_pos⟩
      · exact hu.pos d' h0 hle
    · intro d' h0 hd'
      rcases Nat.lt_or_ge d d' with hlt | hle
      · obtain rfl : d' = d + 1 := by omega
        intro id ht
        rw [NodeStorage.refCount_congr htop, (hu.otherDepths (d + 1 + 1) (Or.inl (by omega))).1]
        exact hrefs id ht
      · exact hu.refs d' h0 hle

/-- An update of the handle for `S` whose requests turn it into one for `T`. -/
theorem StorageOk.safeUpdate (hF : InPlay t F) {S T : Finset (SingleEntry K V)} (hd : 0 < d)
    (h : StorageOk t F ns (⟨d, S⟩ ::ₘ roots)) (hv : ur.Valid t F ns d)
    (hdelta : ∀ c, Tracked t d c →
      ur.delta t c = hits (childIdent t d T) c - hits (childIdent t d S) c) :
    ∃ ns', SafeUpdate t d ns ur ns' ∧ StorageOk t F ns' (⟨d, T⟩ ::ₘ roots) := by
  have hready : UpdateReady t F ns (⟨d, T⟩ ::ₘ roots) d ur := by
    refine ⟨fun d' _ => h.nodes d', fun d' _ => ⟨h.fn_pos d', h.sen_pos d'⟩, ?_, hv, ?_⟩
    · intro d' hd' id ht
      rw [rootCount_cons_ne (by omega), h.refs d' id ht, rootCount_cons_ne (by omega)]
    · intro id ht
      have hrefs := h.refs d id ht
      have hS : (rootCount t (⟨d, S⟩ ::ₘ roots) d id : Int) = _ := rootCount_cons_self S id
      have hT : (rootCount t (⟨d, T⟩ ::ₘ roots) d id : Int) = _ := rootCount_cons_self T id
      have hδ := hdelta id ht
      push_cast
      omega
  obtain ⟨ns', hsafe, hu⟩ := consumeAndExecute_spec hF hready
  refine ⟨ns', hsafe, ?_⟩
  have hother : ∀ d', ¬ (0 < d' ∧ d' ≤ d) → ns'.fns d' = ns.fns d' ∧ ns'.sens d' = ns.sens d' :=
    fun d' hd' => hu.otherDepths d' (by omega)
  refine ⟨fun d' => ?_, fun d' => ?_, fun d' => ?_, fun d' => ?_, ?_⟩
  · by_cases hd' : 0 < d' ∧ d' ≤ d
    · exact hu.nodes d' hd'.1 hd'.2
    · exact (h.nodes d').congr_depth (hother d' hd')
  · by_cases hd' : 0 < d' ∧ d' ≤ d
    · exact hu.refs d' hd'.1 hd'.2
    · intro id ht
      have hne : d' ≠ d := by omega
      rw [NodeStorage.refCount_congr (hother d' hd'), h.refs d' id ht, rootCount_cons_ne hne,
        rootCount_cons_ne hne]
      rcases Nat.eq_zero_or_pos d' with rfl | h0
      · -- no edge leads to depth 0
        simp [NodeStorage.edgesTo, FullNode.edgesTo, total]
      · rw [(hother (d' + 1) (by omega)).1]
  · by_cases hd' : 0 < d' ∧ d' ≤ d
    · exact (hu.pos d' hd'.1 hd'.2).fn
    · rw [(hother d' hd').1]
      exact h.fn_pos d'
  · by_cases hd' : 0 < d' ∧ d' ≤ d
    · exact (hu.pos d' hd'.1 hd'.2).sen
    · rw [(hother d' hd').2]
      exact h.sen_pos d'
  · obtain ⟨bound, hb⟩ := h.deep
    refine ⟨max bound d, fun d' hd' id => ?_⟩
    rw [(hother d' (by omega)).1]
    exact hb d' (by omega) id

theorem StorageOk.update (hF : InPlay t F) {S T : Finset (SingleEntry K V)} (hd : 0 < d)
    (h : StorageOk t F ns (⟨d, S⟩ ::ₘ roots)) (hv : ur.Valid t F ns d)
    (hdelta : ∀ c, Tracked t d c →
      ur.delta t c = hits (childIdent t d T) c - hits (childIdent t d S) c) :
    Ensures (ApplyUpdate.consumeAndExecute t d ns ur)
      (fun ns' => StorageOk t F ns' (⟨d, T⟩ ::ₘ roots)) := by
  obtain ⟨ns', hsafe, hok⟩ := h.safeUpdate hF hd hv hdelta
  exact ⟨ns', hsafe.consumeAndExecute_eq, hok⟩

end Hypertrie
