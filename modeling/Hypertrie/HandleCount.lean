import Hypertrie.CanonicalUpdate

/-! Handles that come and go: taking and giving back a reference, and setting
the value of one key. -/

namespace Hypertrie

open UnorderedMap UpdateRequests

variable {M : Type → Type → Type} [UnorderedMap M] {K V : Type}
variable {t : HypertrieTrait K V} {F : Nat → Finset (SingleEntry K V) → Prop}
variable {ns : NodeStorage M K V} {roots roots' rest : Multiset (Root K V)} {d : Nat}
  {S : Finset (SingleEntry K V)}

section RefCount

theorem edgesTo_recount {fns : M RawIdentifier (FullNode M K V)} {id : RawIdentifier}
    {n : FullNode M K V} (hn : find fns id = some n) (refCount : Nat) (c : RawIdentifier) :
    NodeStorage.edgesTo d (assign fns id { n with refCount := refCount }) c =
      NodeStorage.edgesTo d fns c := by
  rw [edgesTo_erase hn c]
  unfold NodeStorage.edgesTo
  rw [total_assign]
  rfl

variable [DecidableEq K] [DecidableEq V] [Inhabited K]

theorem StorageOk.refCount_eq (hF : InPlay t F) (h : StorageOk t F ns roots) (hS : F d S)
    (hne : S.Nonempty) (hst : Stored t ns d S) (ht : Tracked t d (t.ident d S)) :
    RawHypertrieContext.refCount t ns d (t.ident d S) = some (ns.refCount t d (t.ident d S)) := by
  unfold RawHypertrieContext.refCount
  by_cases hc : 2 ≤ S.card
  · have hf := (hF.isFn_ident_iff hS).mpr hc
    obtain ⟨n, hn⟩ := contains_iff.mp (hst.fn hc)
    have hs : t.isSen (t.ident d S) ≠ true := fun hs => by
      rw [isFn_of_isSen hs] at hf
      cases hf
    rw [if_neg hs, hn, (h.nodes d).refCount_fn hF hn]
    rfl
  · have hpos := hne.card_pos
    have hs : t.isSen (t.ident d S) = true := HypertrieTrait.isSen_ident_iff.mpr (by omega)
    have hp : t.inPlaceNode d = false := ht.resolve_left (by simp [isFn_of_isSen hs])
    obtain ⟨n, hn⟩ := contains_iff.mp (hst.sen (by omega) hp)
    rw [if_pos hs, hn, (h.nodes d).refCount_sen hn]
    rfl

/-- Only the count of one node changes, by as much as the handles that hold it do. -/
theorem setRefCount_spec (hF : InPlay t F) (h : StorageOk t F ns roots) (hS : F d S)
    (hne : S.Nonempty) (hst : Stored t ns d S) (ht : Tracked t d (t.ident d S)) {r : Nat} (hr : 0 < r)
    (hroots : ∀ d' id, (rootCount t roots' d' id : Int) = rootCount t roots d' id +
      if d' = d ∧ id = t.ident d S then (r : Int) - ns.refCount t d (t.ident d S) else 0) :
    Ensures (RawHypertrieContext.setRefCount t ns d (t.ident d S) r)
      (fun ns' => StorageOk t F ns' roots') := by
  unfold RawHypertrieContext.setRefCount
  by_cases hc : 2 ≤ S.card
  · have hf := (hF.isFn_ident_iff hS).mpr hc
    obtain ⟨n, hn⟩ := contains_iff.mp (hst.fn hc)
    have hs : t.isSen (t.ident d S) ≠ true := fun hs => by
      rw [isFn_of_isSen hs] at hf
      cases hf
    rw [if_neg hs, hn]
    have hfind : ∀ d' id n', find ((ns.setFns d (assign (ns.fns d) (t.ident d S)
        { n with refCount := r })).fns d') id = some n' →
        d' = d ∧ id = t.ident d S ∧ n' = { n with refCount := r } ∨ find (ns.fns d') id = some n' := by
      intro d' id n' hn'
      by_cases hd : d' = d
      · subst hd
        rw [NodeStorage.setFns_fns_self, find_assign] at hn'
        split at hn'
        next hid =>
          rw [Option.some.injEq] at hn'
          exact Or.inl ⟨rfl, hid, hn'.symm⟩
        next => exact Or.inr hn'
      · rw [NodeStorage.setFns_fns_ne _ hd] at hn'
        exact Or.inr hn'
    have hedges : ∀ d' c, NodeStorage.edgesTo d' ((ns.setFns d (assign (ns.fns d) (t.ident d S)
        { n with refCount := r })).fns d') c = NodeStorage.edgesTo d' (ns.fns d') c := by
      intro d' c
      by_cases hd : d' = d
      · subst hd
        rw [NodeStorage.setFns_fns_self, edgesTo_recount hn]
      · rw [NodeStorage.setFns_fns_ne _ hd]
    refine Ensures.pure ⟨fun d' => ⟨?_, (h.nodes d').sen⟩, ?_, ?_, h.sen_pos, ?_⟩
    · intro id n' hn'
      rcases hfind d' id n' hn' with ⟨rfl, rfl, rfl⟩ | hold
      · have hrep := (h.nodes d').represents hF hS hn
        exact ⟨S, hS, hc, rfl, hrep.size, hrep.values, hrep.edges⟩
      · exact (h.nodes d').fn id n' hold
    · intro d' id htr
      have hold := h.refs d' id htr
      have hcount := hroots d' id
      show NodeStorage.refCount t (ns.setFns d (assign (ns.fns d) (t.ident d S)
        { n with refCount := r })) d' id = NodeStorage.edgesTo (d' + 1) ((ns.setFns d
          (assign (ns.fns d) (t.ident d S) { n with refCount := r })).fns (d' + 1)) id +
            rootCount t roots' d' id
      rw [hedges]
      by_cases hhere : d' = d ∧ id = t.ident d S
      · obtain ⟨rfl, rfl⟩ := hhere
        have hnew : NodeStorage.refCount t (ns.setFns d' (assign (ns.fns d') (t.ident d' S)
            { n with refCount := r })) d' (t.ident d' S) = r := by
          unfold NodeStorage.refCount
          rw [hf, if_pos rfl, NodeStorage.setFns_fns_self]
          exact NodeStorage.fnRefs_of_find (find_assign_self _ _ _)
        rw [if_pos ⟨rfl, rfl⟩] at hcount
        omega
      · have hsame : NodeStorage.refCount t (ns.setFns d (assign (ns.fns d) (t.ident d S)
            { n with refCount := r })) d' id = ns.refCount t d' id := by
          unfold NodeStorage.refCount NodeStorage.fnRefs
          by_cases hd : d' = d
          · subst hd
            have hid : id ≠ t.ident d' S := fun he => hhere ⟨rfl, he⟩
            rw [NodeStorage.setFns_fns_self, find_assign_ne _ _ hid]
            rfl
          · rw [NodeStorage.setFns_fns_ne _ hd]
            rfl
        rw [if_neg hhere] at hcount
        omega
    · intro d' id n' hn'
      rcases hfind d' id n' hn' with ⟨-, -, rfl⟩ | hold
      · exact hr
      · exact h.fn_pos d' id n' hold
    · obtain ⟨bound, hb⟩ := h.deep
      refine ⟨bound, fun d' hd' id => ?_⟩
      have hd : d' ≠ d := by
        rintro rfl
        rw [hb d' hd'] at hn
        cases hn
      rw [NodeStorage.setFns_fns_ne _ hd]
      exact hb d' hd' id
  · have hpos := hne.card_pos
    have hc1 : S.card = 1 := by omega
    have hs : t.isSen (t.ident d S) = true := HypertrieTrait.isSen_ident_iff.mpr hc1
    have hf := isFn_of_isSen hs
    have hp : t.inPlaceNode d = false := ht.resolve_left (by simp [hf])
    obtain ⟨n, hn⟩ := contains_iff.mp (hst.sen hc1 hp)
    rw [if_pos hs, hn]
    have hfind : ∀ d' id n', find ((ns.setSens d (assign (ns.sens d) (t.ident d S)
        { n with refCount := r })).sens d') id = some n' →
        d' = d ∧ id = t.ident d S ∧ n' = { n with refCount := r } ∨ find (ns.sens d') id = some n' := by
      intro d' id n' hn'
      by_cases hd : d' = d
      · subst hd
        rw [NodeStorage.setSens_sens_self, find_assign] at hn'
        split at hn'
        next hid =>
          rw [Option.some.injEq] at hn'
          exact Or.inl ⟨rfl, hid, hn'.symm⟩
        next => exact Or.inr hn'
      · rw [NodeStorage.setSens_sens_ne _ hd] at hn'
        exact Or.inr hn'
    refine Ensures.pure ⟨fun d' => ⟨(h.nodes d').fn, ?_⟩, ?_, h.fn_pos, ?_, h.deep⟩
    · intro id n' hn'
      rcases hfind d' id n' hn' with ⟨rfl, rfl, rfl⟩ | hold
      · exact (h.nodes d').sen _ n hn
      · exact (h.nodes d').sen id n' hold
    · intro d' id htr
      have hold := h.refs d' id htr
      have hcount := hroots d' id
      show NodeStorage.refCount t (ns.setSens d (assign (ns.sens d) (t.ident d S)
        { n with refCount := r })) d' id =
          NodeStorage.edgesTo (d' + 1) (ns.fns (d' + 1)) id + rootCount t roots' d' id
      by_cases hhere : d' = d ∧ id = t.ident d S
      · obtain ⟨rfl, rfl⟩ := hhere
        have hnew : NodeStorage.refCount t (ns.setSens d' (assign (ns.sens d') (t.ident d' S)
            { n with refCount := r })) d' (t.ident d' S) = r := by
          unfold NodeStorage.refCount
          rw [hf, if_neg Bool.false_ne_true, NodeStorage.setSens_sens_self]
          exact NodeStorage.senRefs_of_find (find_assign_self _ _ _)
        rw [if_pos ⟨rfl, rfl⟩] at hcount
        omega
      · have hsame : NodeStorage.refCount t (ns.setSens d (assign (ns.sens d) (t.ident d S)
            { n with refCount := r })) d' id = ns.refCount t d' id := by
          unfold NodeStorage.refCount NodeStorage.senRefs
          by_cases hd : d' = d
          · subst hd
            have hid : id ≠ t.ident d' S := fun he => hhere ⟨rfl, he⟩
            rw [NodeStorage.setSens_sens_self, find_assign_ne _ _ hid]
            rfl
          · rw [NodeStorage.setSens_sens_ne _ hd]
            rfl
        rw [if_neg hhere] at hcount
        omega
    · intro d' id n' hn'
      rcases hfind d' id n' hn' with ⟨-, -, rfl⟩ | hold
      · exact hr
      · exact h.sen_pos d' id n' hold

theorem rootCount_cons_of_nonempty (hne : S.Nonempty) (d' : Nat) (id : RawIdentifier) :
    (rootCount t (⟨d, S⟩ ::ₘ roots) d' id : Int) =
      rootCount t roots d' id + if d' = d ∧ id = t.ident d S then 1 else 0 := by
  by_cases hd : d' = d
  · subst hd
    rw [rootCount_cons_self, childIdent_of_nonempty t d' hne]
    simp [hits, eq_comm]
  · rw [rootCount_cons_ne hd]
    simp [hd]

/-- One more handle for a stored set. -/
theorem incRefCount_spec (hF : InPlay t F) (h : StorageOk t F ns roots) (hS : F d S)
    (hne : S.Nonempty) (hst : Stored t ns d S) (ht : Tracked t d (t.ident d S)) :
    Ensures (RawHypertrieContext.incRefCount t ns d (t.ident d S))
      (fun ns' => StorageOk t F ns' (⟨d, S⟩ ::ₘ roots)) := by
  unfold RawHypertrieContext.incRefCount
  rw [h.refCount_eq hF hS hne hst ht]
  refine setRefCount_spec hF h hS hne hst ht (Nat.succ_pos _) fun d' id => ?_
  rw [rootCount_cons_of_nonempty hne]
  split
  · push_cast
    ring
  · rfl

/-- The storage sees of its handles only how many there are for each node. -/
theorem StorageOk.congr_roots (h : StorageOk t F ns roots)
    (hc : ∀ d id, Tracked t d id → rootCount t roots' d id = rootCount t roots d id) :
    StorageOk t F ns roots' :=
  ⟨h.nodes, fun d id ht => by rw [hc d id ht]; exact h.refs d id ht, h.fn_pos, h.sen_pos, h.deep⟩

theorem rootCount_cons_empty (d' : Nat) (id : RawIdentifier) :
    rootCount t (⟨d, ∅⟩ ::ₘ roots) d' id = rootCount t roots d' id :=
  Multiset.countP_cons_of_neg _ fun hn => by simp at hn

/-- A handle for a stored set is given up. -/
theorem decrRefCount_spec (hF : InPlay t F) (hd : 0 < d) (h : StorageOk t F ns (⟨d, S⟩ ::ₘ rest))
    (hS : F d S) (hne : S.Nonempty) (ht : Tracked t d (t.ident d S)) :
    Ensures (RawHypertrieContext.decrRefCount t ns d (t.ident d S))
      (fun ns' => StorageOk t F ns' rest) := by
  have hst := h.stored_root hF hS hne (Multiset.mem_cons_self _ _)
  unfold RawHypertrieContext.decrRefCount
  rw [h.refCount_eq hF hS hne hst ht]
  simp only [Option.bind_eq_bind, Option.bind_some]
  split
  next h1 =>
    refine setRefCount_spec hF h hS hne hst ht (by omega) fun d' id => ?_
    rw [rootCount_cons_of_nonempty hne]
    split <;> omega
  next h1 =>
    have hnew : (UpdateRequests.new : UpdateRequests M K V).Valid t F ns d := Valid.new
    have hrel := release_spec hF hnew hS hne hst true
    rw [if_pos rfl] at hrel
    have hup := h.update hF (T := ∅) hd hrel.1 (fun c hc => by rw [hrel.2 c hc]; simp)
    exact hup.mono fun ns' h' => h'.congr_roots fun d' id _ => (rootCount_cons_empty d' id).symm

end RefCount

end Hypertrie
