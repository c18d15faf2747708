import Hypertrie.EinsumSpec

/-! The Cartesian decomposition of a subscript. Its parts are the connected components
of the labels; positions lead from each part back into the whole subscript. -/

namespace Hypertrie

namespace Subscript

/-- The sub-subscripts take the subscript apart: no label, operand or result position is lost or
in two of them, and none can be taken apart further. -/
structure DecomposesInto (sets : SetBegin Label) (sc : Subscript)
    (subs : List CartesianSubSubscript) : Prop where
  nonempty : ∀ sub ∈ subs, sub.subscript.operandsLabelSet.Nonempty
  disjoint : subs.Pairwise (fun sub sub' =>
    Disjoint sub.subscript.operandsLabelSet sub'.subscript.operandsLabelSet)
  labels : ∀ label, label ∈ sc.operandsLabelSet ↔
    ∃ sub ∈ subs, label ∈ sub.subscript.operandsLabelSet
  operandPoss : (subs.flatMap (·.originalOperandPoss)).Perm (List.range sc.operands.length)
  operands : ∀ sub ∈ subs,
    sub.subscript.operands.map some = sub.originalOperandPoss.map (sc.operands[·]?)
  resultLabel : ∀ label ∈ sc.result, subs.countP (fun sub => label ∈ sub.subscript.result) = 1
  resultPoss : (subs.flatMap (·.originalResultPoss)).Perm (List.range sc.result.length)
  result : ∀ sub ∈ subs, sub.subscript.result.map some = sub.originalResultPoss.map (sc.result[·]?)
  type : ∀ sub ∈ subs, ∃ type, sub.subscript.type sets = some type ∧ type ≠ .cartesian

section Lists

variable {α β : Type}

theorem map_some_filter (p : α → Bool) (l : List α) : (l.filter p).map some =
    ((List.range l.length).filter (fun pos => l[pos]?.any p)).map (l[·]?) := by
  induction l with
  | nil => rfl
  | cons a l ih =>
    have htail : (((List.range l.length).map Nat.succ).filter
        (fun pos => (a :: l)[pos]?.any p)).map ((a :: l)[·]?) = (l.filter p).map some := by
      rw [List.filter_map, List.map_map]
      exact ih.symm
    rw [List.length_cons, List.range_succ_eq_map, List.filter_cons, List.filter_cons]
    by_cases ha : p a = true
    · simp [ha, htail]
    · simp [ha, htail]

/-- The positions of each kind together are all positions, if each has one kind. -/
theorem flatMap_filter_perm [DecidableEq β] (kinds : List α) (q : α → β → Bool) {l : List β}
    (h : ∀ x ∈ l, kinds.countP (fun kind => q kind x) = 1) :
    (kinds.flatMap fun kind => l.filter (q kind)).Perm l := by
  have hcount (x : β) : (kinds.flatMap fun kind => l.filter (q kind)).count x =
      kinds.countP (fun kind => q kind x) * l.count x := by
    clear h
    induction kinds with
    | nil => simp
    | cons kind kinds ih =>
      rw [List.flatMap_cons, List.count_append, ih, List.countP_cons]
      by_cases hq : q kind x = true
      · rw [List.count_filter hq, if_pos hq, Nat.add_mul, Nat.one_mul, Nat.add_comm]
      · have hnot : x ∉ l.filter (q kind) := fun hx => hq (List.mem_filter.mp hx).2
        rw [List.count_eq_zero_of_not_mem hnot, if_neg hq, Nat.zero_add, Nat.add_zero]
  rw [List.perm_iff_count]
  intro x
  rw [hcount]
  by_cases hx : x ∈ l
  · rw [h x hx, Nat.one_mul]
  · rw [List.count_eq_zero_of_not_mem hx, Nat.mul_zero]

theorem countP_mem_eq_one {cs : List (Finset Label)} {label : Label} (hdisj : cs.Pairwise Disjoint)
    (h : ∃ c ∈ cs, label ∈ c) : cs.countP (fun c => label ∈ c) = 1 := by
  induction cs with
  | nil => simp at h
  | cons c cs ih =>
    obtain ⟨hc, hdisj⟩ := List.pairwise_cons.mp hdisj
    by_cases hl : label ∈ c
    · have hzero : cs.countP (fun c => label ∈ c) = 0 := by
        rw [List.countP_eq_zero]
        intro d hd
        simpa using Finset.disjoint_left.mp (hc d hd) hl
      simp [hl, hzero]
    · have hrest : ∃ c ∈ cs, label ∈ c := by simpa [hl] using h
      simp [hl, ih hdisj hrest]

end Lists

section Parts

variable {sets : SetBegin Label} {sc : Subscript} {cs : List (Finset Label)} {c : Finset Label}

/-- The operand has labels in the set. -/
def meets (c : Finset Label) (operand : List Label) : Bool := operand.filter (· ∈ c) ≠ []

theorem Splits.filter_eq (h : sc.Splits cs) (hc : c ∈ cs) {operand : List Label}
    (hop : operand ∈ sc.operands) (hmeets : meets c operand = true) :
    operand.filter (· ∈ c) = operand := by
  obtain ⟨a, ha⟩ := List.exists_mem_of_ne_nil _ (of_decide_eq_true hmeets)
  obtain ⟨ha, hac⟩ := List.mem_filter.mp ha
  apply List.filter_eq_self.mpr
  intro b hb
  exact decide_eq_true (h.operand c hc operand hop a ha (of_decide_eq_true hac) b hb)

theorem Splits.meets_iff (h : sc.Splits cs) (hc : c ∈ cs) {operand : List Label}
    (hop : operand ∈ sc.operands) {a : Label} (ha : a ∈ operand) :
    meets c operand = true ↔ a ∈ c := by
  constructor
  · intro hmeets
    rw [← h.filter_eq hc hop hmeets] at ha
    exact of_decide_eq_true (List.mem_filter.mp ha).2
  · intro hac
    exact decide_eq_true (List.ne_nil_of_mem (List.mem_filter.mpr ⟨ha, decide_eq_true hac⟩))

theorem Splits.operands_extract (h : sc.Splits cs) (hc : c ∈ cs) :
    (sc.extractCartesianSubSubscript c).subscript.operands = sc.operands.filter (meets c) := by
  rw [extractCartesianSubSubscript, List.filter_map]
  show (sc.operands.filter (meets c)).map _ = _
  rw [List.map_congr_left (g := id), List.map_id]
  intro operand hop
  obtain ⟨hop, hmeets⟩ := List.mem_filter.mp hop
  exact h.filter_eq hc hop hmeets

theorem Splits.operandsLabelSet_extract (h : sc.Splits cs) (hc : c ∈ cs) :
    (sc.extractCartesianSubSubscript c).subscript.operandsLabelSet = c := by
  ext label
  rw [mem_operandsLabelSet, h.operands_extract hc]
  constructor
  · rintro ⟨operand, hop, hl⟩
    obtain ⟨hop, hmeets⟩ := List.mem_filter.mp hop
    exact (h.meets_iff hc hop hl).mp hmeets
  · intro hl
    obtain ⟨operand, hop, hlop⟩ := mem_operandsLabelSet.mp ((h.mem label).mpr ⟨c, hc, hl⟩)
    exact ⟨operand, List.mem_filter.mpr ⟨hop, (h.meets_iff hc hop hlop).mpr hl⟩, hlop⟩

theorem map_mod_eq {n : Nat} (hn : n ≤ posTypeCount) (p : Nat → Bool) :
    ((List.range n).filter p).map (· % posTypeCount) = (List.range n).filter p := by
  rw [List.map_congr_left (g := id), List.map_id]
  intro pos hpos
  have hlt := List.mem_range.mp (List.mem_filter.mp hpos).1
  exact Nat.mod_eq_of_lt (by omega)

theorem originalOperandPoss_extract (hlen : sc.operands.length ≤ posTypeCount) (c : Finset Label) :
    (sc.extractCartesianSubSubscript c).originalOperandPoss =
      (List.range sc.operands.length).filter (fun pos => sc.operands[pos]?.any (meets c)) := by
  rw [extractCartesianSubSubscript]
  simp only [List.length_map, map_mod_eq hlen, List.getElem?_map, Option.any_map]
  rfl

theorem originalResultPoss_extract (hlen : sc.result.length ≤ posTypeCount) (c : Finset Label) :
    (sc.extractCartesianSubSubscript c).originalResultPoss =
      (List.range sc.result.length).filter (fun pos => sc.result[pos]?.any (· ∈ c)) :=
  map_mod_eq hlen _

/-- The labels of a part hang together, so it is not a Cartesian product. -/
theorem type_extract (hcs : sc.connectedComponents sets = some cs) (h : sc.Splits cs) (hc : c ∈ cs) :
    ∃ type, (sc.extractCartesianSubSubscript c).subscript.type sets = some type ∧
      type ≠ .cartesian := by
  set sub := (sc.extractCartesianSubSubscript c).subscript with hsub
  obtain ⟨hwf, hedges, hnodes⟩ := sc.dependencyGraph_spec
  obtain ⟨cs', hcs', hsplits⟩ := connectedComponents_spec sets sub
  have hwhole (d) (hd : d ∈ cs') : d = c := by
    apply UndirectedGraph.eq_of_closed sets hwf hcs hc (hsplits.nonempty d hd)
    · intro a ha
      have hmem := (hsplits.mem a).mpr ⟨d, hd, ha⟩
      rwa [hsub, h.operandsLabelSet_extract hc] at hmem
    · intro a ha b hb
      obtain ⟨operand, hop, haop, hbop⟩ := (hedges a b).mp hb
      have hac : a ∈ c := by
        have hmem := (hsplits.mem a).mpr ⟨d, hd, ha⟩
        rwa [hsub, h.operandsLabelSet_extract hc] at hmem
      have hin : operand ∈ sub.operands := by
        rw [hsub, h.operands_extract hc]
        exact List.mem_filter.mpr ⟨hop, (h.meets_iff hc hop haop).mpr hac⟩
      exact hsplits.operand d hd operand hin a haop ha b hbop
  have hone : ¬cs'.length > 1 := by
    intro hlen
    have hdisj := List.pairwise_iff_getElem.mp hsplits.disjoint 0 1 (by omega) hlen (by omega)
    rw [hwhole _ (List.getElem_mem _), hwhole _ (List.getElem_mem _)] at hdisj
    exact (h.nonempty c hc).ne_empty (disjoint_self.mp hdisj)
  rw [type]
  split
  · exact ⟨_, rfl, by decide⟩
  · split
    · split
      · exact ⟨_, rfl, by decide⟩
      · split
        · exact ⟨_, rfl, by decide⟩
        · exact ⟨_, rfl, by decide⟩
    · exact ⟨_, rfl, by decide⟩
  · rw [hcs']
    exact ⟨_, rfl, by rw [if_neg hone]; decide⟩

theorem Splits.exists_mem_result (h : sc.Splits cs)
    (hresult : ∀ label ∈ sc.result, label ∈ sc.operandsLabelSet) {label : Label}
    (hl : label ∈ sc.result) : cs.countP (fun c => label ∈ c) = 1 :=
  countP_mem_eq_one h.disjoint ((h.mem label).mp (hresult label hl))

theorem Splits.operandPoss_perm (h : sc.Splits cs) (hne : ∀ operand ∈ sc.operands, operand ≠ [])
    (hlen : sc.operands.length ≤ posTypeCount) :
    ((cs.map sc.extractCartesianSubSubscript).flatMap (·.originalOperandPoss)).Perm
      (List.range sc.operands.length) := by
  rw [List.flatMap_map]
  simp only [originalOperandPoss_extract hlen]
  apply flatMap_filter_perm cs (fun c pos => sc.operands[pos]?.any (meets c))
  intro pos hpos
  have hlt := List.mem_range.mp hpos
  have hop : sc.operands[pos] ∈ sc.operands := List.getElem_mem hlt
  obtain ⟨a, ha⟩ := List.exists_mem_of_ne_nil _ (hne _ hop)
  have hmem := (h.mem a).mp (mem_operandsLabelSet.mpr ⟨_, hop, ha⟩)
  rw [← countP_mem_eq_one h.disjoint hmem]
  apply List.countP_congr
  intro c hc
  rw [List.getElem?_eq_getElem hlt, Option.any_some, h.meets_iff hc hop ha, decide_eq_true_iff]

theorem Splits.resultPoss_perm (h : sc.Splits cs)
    (hresult : ∀ label ∈ sc.result, label ∈ sc.operandsLabelSet)
    (hlen : sc.result.length ≤ posTypeCount) :
    ((cs.map sc.extractCartesianSubSubscript).flatMap (·.originalResultPoss)).Perm
      (List.range sc.result.length) := by
  rw [List.flatMap_map]
  simp only [originalResultPoss_extract hlen]
  apply flatMap_filter_perm cs (fun c pos => sc.result[pos]?.any (· ∈ c))
  intro pos hpos
  have hlt := List.mem_range.mp hpos
  rw [← h.exists_mem_result hresult (List.getElem_mem hlt)]
  apply List.countP_congr
  intro c hc
  rw [List.getElem?_eq_getElem hlt, Option.any_some]

end Parts

/-- Where positions fit into a byte and the result has labels of operands only, the decomposition
is exact. -/
theorem cartesianSubSubscripts_exact {sc : Subscript} (sets : SetBegin Label)
    (hne : ∀ operand ∈ sc.operands, operand ≠ [])
    (hresult : ∀ label ∈ sc.result, label ∈ sc.operandsLabelSet)
    (hoperandPos : sc.operands.length ≤ posTypeCount)
    (hresultPos : sc.result.length ≤ posTypeCount) :
    Ensures (sc.cartesianSubSubscripts sets) (sc.DecomposesInto sets) := by
  obtain ⟨cs, hcs, h⟩ := connectedComponents_spec sets sc
  refine ⟨cs.map sc.extractCartesianSubSubscript, by rw [cartesianSubSubscripts, hcs]; rfl, ?_⟩
  constructor
  case nonempty =>
    rw [List.forall_mem_map]
    intro c hc
    rw [h.operandsLabelSet_extract hc]
    exact h.nonempty c hc
  case disjoint =>
    rw [List.pairwise_map]
    apply h.disjoint.imp_of_mem
    intro c d hc hd hdisj
    rw [h.operandsLabelSet_extract hc, h.operandsLabelSet_extract hd]
    exact hdisj
  case labels =>
    intro label
    rw [h.mem]
    constructor
    · rintro ⟨c, hc, hl⟩
      exact ⟨_, List.mem_map_of_mem hc, by rwa [h.operandsLabelSet_extract hc]⟩
    · rintro ⟨_, hsub, hl⟩
      obtain ⟨c, hc, rfl⟩ := List.mem_map.mp hsub
      exact ⟨c, hc, by rwa [h.operandsLabelSet_extract hc] at hl⟩
  case operandPoss => exact h.operandPoss_perm hne hoperandPos
  case operands =>
    rw [List.forall_mem_map]
    intro c hc
    rw [h.operands_extract hc, originalOperandPoss_extract hoperandPos]
    exact map_some_filter _ _
  case resultLabel =>
    intro label hl
    rw [List.countP_map, ← h.exists_mem_result hresult hl]
    apply List.countP_congr
    intro c hc
    simp [extractCartesianSubSubscript, hl]
  case resultPoss => exact h.resultPoss_perm hresult hresultPos
  case result =>
    rw [List.forall_mem_map]
    intro c hc
    rw [originalResultPoss_extract hresultPos]
    exact map_some_filter _ _
  case type =>
    rw [List.forall_mem_map]
    intro c hc
    exact type_extract hcs h hc

theorem cartesianSubSubscripts_exact_three :
    Ensures (cartesianSubSubscripts .least ⟨[[97, 98], [99], [98, 100]], [99, 97]⟩)
      (DecomposesInto .least ⟨[[97, 98], [99], [98, 100]], [99, 97]⟩) :=
  cartesianSubSubscripts_exact .least (by decide) (by decide) (by decide) (by decide)

section Wrong

variable {sets : SetBegin Label} {sc : Subscript} {subs : List CartesianSubSubscript}

theorem exists_component (h : sc.cartesianSubSubscripts sets = some subs) :
    ∃ cs, sc.Splits cs ∧ subs = cs.map sc.extractCartesianSubSubscript := by
  obtain ⟨cs, hcs, hsplits⟩ := connectedComponents_spec sets sc
  rw [cartesianSubSubscripts, hcs] at h
  exact ⟨cs, hsplits, (Option.some.inj h).symm⟩

theorem not_decomposes_of_operands (h : posTypeCount < sc.operands.length) :
    ¬Ensures (sc.cartesianSubSubscripts sets) (sc.DecomposesInto sets) := by
  rintro ⟨subs, hsubs, hexact⟩
  obtain ⟨cs, -, rfl⟩ := exists_component hsubs
  have hmem := hexact.operandPoss.mem_iff.mpr (List.mem_range.mpr h)
  obtain ⟨sub, hsub, hpos⟩ := List.mem_flatMap.mp hmem
  obtain ⟨c, -, rfl⟩ := List.mem_map.mp hsub
  obtain ⟨pos, -, heq⟩ := List.mem_map.mp hpos
  have hlt : pos % posTypeCount < posTypeCount := Nat.mod_lt _ (by decide)
  omega

theorem not_decomposes_of_result (h : posTypeCount < sc.result.length) :
    ¬Ensures (sc.cartesianSubSubscripts sets) (sc.DecomposesInto sets) := by
  rintro ⟨subs, hsubs, hexact⟩
  obtain ⟨cs, -, rfl⟩ := exists_component hsubs
  have hmem := hexact.resultPoss.mem_iff.mpr (List.mem_range.mpr h)
  obtain ⟨sub, hsub, hpos⟩ := List.mem_flatMap.mp hmem
  obtain ⟨c, -, rfl⟩ := List.mem_map.mp hsub
  obtain ⟨pos, -, heq⟩ := List.mem_map.mp hpos
  have hlt : pos % posTypeCount < posTypeCount := Nat.mod_lt _ (by decide)
  omega

theorem not_decomposes_of_label {label : Label} (hl : label ∈ sc.result)
    (h : label ∉ sc.operandsLabelSet) :
    ¬Ensures (sc.cartesianSubSubscripts sets) (sc.DecomposesInto sets) := by
  rintro ⟨subs, hsubs, hexact⟩
  obtain ⟨cs, hsplits, rfl⟩ := exists_component hsubs
  have hcount := hexact.resultLabel label hl
  obtain ⟨sub, hsub, hin⟩ := List.countP_pos_iff.mp (show 0 < _ by rw [hcount]; decide)
  obtain ⟨c, hc, rfl⟩ := List.mem_map.mp hsub
  have hlc := (List.mem_filter.mp (of_decide_eq_true hin)).2
  exact h ((hsplits.mem label).mpr ⟨c, hc, of_decide_eq_true hlc⟩)

theorem type_pair (result : List Label) :
    type .least ⟨[[97], [98]], result⟩ = some .cartesian := by
  have hcs : connectedComponents .least ⟨[[97], [98]], []⟩ = some [{97}, {98}] := by
    decide +kernel
  have htype : type .least ⟨[[97], [98]], result⟩ =
      (connectedComponents .least ⟨[[97], [98]], []⟩).bind
        (fun cs => some (if cs.length > 1 then .cartesian else .join)) := rfl
  rw [htype, hcs]
  rfl

end Wrong

/-- A Cartesian subscript that is not taken apart exactly. -/
structure Misses (sets : SetBegin Label) (sc : Subscript) : Prop where
  operands : 2 ≤ sc.operands.length
  labels : ∀ operand ∈ sc.operands, operand ≠ []
  type : sc.type sets = some .cartesian
  wrong : ¬Ensures (sc.cartesianSubSubscripts sets) (sc.DecomposesInto sets)

/-- A result label of no operand, more operands than positions, more result labels than positions. -/
theorem not_decomposes : Misses .least ⟨[[97], [98]], [99]⟩ ∧
    Misses .least ⟨List.replicate 256 [97] ++ [[98]], []⟩ ∧
    Misses .least ⟨[[97], [98]], List.replicate 257 97⟩ := by
  have hpair : ∀ operand ∈ ([[97], [98]] : List (List Label)), operand ≠ [] := by decide
  refine ⟨?_, ?_, ?_⟩
  · refine ⟨le_rfl, hpair, type_pair _, ?_⟩
    exact not_decomposes_of_label (List.mem_singleton_self 99) (by decide)
  · refine ⟨?_, ?_, ?_, ?_⟩
    · rw [List.length_append, List.length_replicate]
      decide
    · intro operand hop
      rcases List.mem_append.mp hop with hop | hop
      · rw [List.eq_of_mem_replicate hop]
        exact List.cons_ne_nil _ _
      · rw [List.mem_singleton.mp hop]
        exact List.cons_ne_nil _ _
    · rw [← subscriptOf_operands257]
      exact type_operands257
    · apply not_decomposes_of_operands
      rw [List.length_append, List.length_replicate]
      decide
  · refine ⟨le_rfl, hpair, type_pair _, ?_⟩
    apply not_decomposes_of_result
    rw [List.length_replicate]
    decide

end Subscript

end Hypertrie
