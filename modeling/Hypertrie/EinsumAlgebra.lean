import Hypertrie.EinsumSpec

/-! What einsum does not depend on, and how its totals add and multiply when
operands are split, joined or summed over. -/

namespace Hypertrie

open UnorderedMap Weighted LabelledOperand Assignment

variable {M M' : Type → Type → Type} [UnorderedMap M] [UnorderedMap M'] {K V : Type}
variable [DecidableEq K] [DecidableEq V] [Inhabited K]
variable {t : HypertrieTrait K V} {ns : NodeStorage M K V} {ns' : NodeStorage M' K V}
  {roots roots' : Multiset (Root K V)} {operands operands' : List (LabelledOperand K V)}
  {result result' : List Label} {o o₁ o₂ : LabelledOperand K V}

/-- What einsum requires of its operands and of the labels of its result. -/
structure Evaluable (t : HypertrieTrait K V) (ns : NodeStorage M K V) (roots : Multiset (Root K V))
    (operands : List (LabelledOperand K V)) (result : List Label) : Prop where
  canonical : Canonical t ns roots
  noCollision : NoCollision t roots
  valid : ∀ o ∈ operands, o.Valid t (Live roots) ns
  length : operands.length ≤ posTypeCount
  nodup : result.Nodup
  bound : ∀ l ∈ result, l ∈ labelSet operands

/-- What einsum yields for the operands with values that count. -/
def evaluateEinsum (t : HypertrieTrait K V) (ns : NodeStorage M K V) (c : EinsumChoices K V)
    (operands : List (LabelledOperand K V)) (result : List Label) : Option (List (Entry K)) :=
  einsum t ns c false (fun _ => 0) (subscriptOf operands result) (operands.map (·.hypertrie))

theorem Evaluable.lists (h : Evaluable t ns roots operands result) (c : EinsumChoices K V) :
    ∃ out, evaluateEinsum t ns c operands result = some out ∧
      Lists true out (solutions operands) (result.map ·) :=
  einsum_lists (h.canonical.readable h.noCollision) ⟨h.valid, h.length, h.nodup⟩ h.bound c _

section Stores

theorem singleLabel_valid {ns : NodeStorage AssocMap (BitVec 64) Bool}
    {roots : Multiset (Root (BitVec 64) Bool)} (hc : Canonical defaultBoolTrait ns roots)
    (hn : NoCollision defaultBoolTrait roots) {keyParts : Finset (BitVec 64)}
    (hroot : ⟨1, keyParts.image fun keyPart => ⟨[keyPart], true⟩⟩ ∈ roots) (hne : keyParts.Nonempty)
    (label : Label) : (singleLabel label keyParts).Valid defaultBoolTrait (Live roots) ns :=
  ⟨hc.root_holds hn hroot, hne.image _, rfl, List.cons_ne_nil _ _⟩

theorem exists_singleLabels : ∃ (ns : NodeStorage AssocMap (BitVec 64) Bool)
    (roots : Multiset (Root (BitVec 64) Bool)),
    Canonical defaultBoolTrait ns roots ∧ NoCollision defaultBoolTrait roots ∧
    ∀ label, ∀ keyParts ∈ ([{8}, {9}, {8, 9}] : List (Finset (BitVec 64))),
      (singleLabel label keyParts).Valid defaultBoolTrait (Live roots) ns := by
  let rootList : List (Root (BitVec 64) Bool) :=
    ([{8}, {9}, {8, 9}] : List (Finset (BitVec 64))).map fun keyParts =>
      ⟨1, keyParts.image fun keyPart => ⟨[keyPart], true⟩⟩
  let roots : Multiset (Root (BitVec 64) Bool) := rootList
  have hr : RootsOk defaultBoolTrait roots := by
    intro r hr
    obtain ⟨keyParts, hk, rfl⟩ := List.mem_map.mp (Multiset.mem_coe.mp hr)
    simp only [List.mem_cons, List.not_mem_nil, or_false] at hk
    rcases hk with rfl | rfl | rfl <;> exact ⟨by decide, by decide, by decide, by decide⟩
  have hn : NoCollision defaultBoolTrait roots :=
    noCollision_of_liveSets (by decide +kernel) (by decide +kernel)
  obtain ⟨ns, hc⟩ := exists_canonical (M := AssocMap) hr hn
  refine ⟨ns, roots, hc, hn, fun label keyParts hk => ?_⟩
  have hne : keyParts.Nonempty := by
    simp only [List.mem_cons, List.not_mem_nil, or_false] at hk
    rcases hk with rfl | rfl | rfl <;> decide
  exact singleLabel_valid hc hn (Multiset.mem_coe.mpr (List.mem_map_of_mem hk)) hne label

/-- Two operands with one label each, in a store that has the parts of the first one as well. -/
theorem exists_evaluable : ∃ (ns : NodeStorage AssocMap (BitVec 64) Bool)
    (roots : Multiset (Root (BitVec 64) Bool)),
    (∀ label, ∀ keyParts ∈ ([{8}, {9}, {8, 9}] : List (Finset (BitVec 64))),
      (singleLabel label keyParts).Valid defaultBoolTrait (Live roots) ns) ∧
    ∀ operands ⊆ [singleLabel 97 {8, 9}, singleLabel 98 {8}], ∀ result, operands.length ≤ 3 →
      result.Nodup → (∀ l ∈ result, l ∈ labelSet operands) →
        Evaluable defaultBoolTrait ns roots operands result := by
  obtain ⟨ns, roots, hc, hn, hv⟩ := exists_singleLabels
  refine ⟨ns, roots, hv, fun operands hsub result hlen hnodup hbound => ?_⟩
  refine ⟨hc, hn, fun o ho => ?_, hlen.trans (by decide), hnodup, hbound⟩
  rcases List.mem_pair.mp (hsub ho) with rfl | rfl
  · exact hv 97 {8, 9} (by simp)
  · exact hv 98 {8} (by simp)

end Stores

section Relations

/-- Each operand of the first list has its labels and its entries in common with one of the second. -/
def RelationsAmong (operands operands' : List (LabelledOperand K V)) : Prop :=
  ∀ o ∈ operands, ∃ o' ∈ operands', o'.labels = o.labels ∧ o'.entries = o.entries

omit [DecidableEq K] [DecidableEq V] [Inhabited K] in
theorem constraint_congr (hl : o₁.labels = o₂.labels) (he : o₁.entries = o₂.entries) :
    o₁.constraint = o₂.constraint := by
  simp only [constraint, rows, hl, he]

omit [DecidableEq K] [DecidableEq V] [Inhabited K] in
theorem RelationsAmong.labelSet_subset (h : RelationsAmong operands operands') :
    labelSet operands ⊆ labelSet operands' := by
  intro l hl
  obtain ⟨o, ho, hlo⟩ := mem_labelSet.mp hl
  obtain ⟨o', ho', hlabels, -⟩ := h o ho
  exact mem_labelSet.mpr ⟨o', ho', hlabels ▸ hlo⟩

omit [DecidableEq K] [DecidableEq V] [Inhabited K] in
theorem RelationsAmong.constraints_subset (h : RelationsAmong operands operands') :
    constraints operands' ⊆ constraints operands := by
  intro σ hσ
  refine mem_constraints.mpr fun o ho => ?_
  obtain ⟨o', ho', hlabels, hentries⟩ := h o ho
  exact constraint_congr hlabels hentries ▸ mem_constraints.mp hσ o' ho'

omit [DecidableEq K] [DecidableEq V] in
theorem solutions_congr (h : RelationsAmong operands operands') (h' : RelationsAmong operands' operands) :
    solutions operands = solutions operands' := by
  have hlabels := Finset.Subset.antisymm h.labelSet_subset h'.labelSet_subset
  have hconstraints := Set.Subset.antisymm h'.constraints_subset h.constraints_subset
  simp only [LabelledOperand.solutions, hlabels, hconstraints]

/-- The totals depend on the relations alone that the operands are: not on their order or on how
often one is listed, not on the store, its maps and how they iterate, and not on the choices of
labels and components. -/
theorem einsum_relations (h : Evaluable t ns roots operands result)
    (h' : Evaluable t ns' roots' operands' result) (hsub : RelationsAmong operands operands')
    (hsup : RelationsAmong operands' operands) (c c' : EinsumChoices K V) :
    ∃ out out', evaluateEinsum t ns c operands result = some out ∧
      evaluateEinsum t ns' c' operands' result = some out' ∧
      ∀ key, weight out key = weight out' key := by
  obtain ⟨out, hout, hlists⟩ := h.lists c
  obtain ⟨out', hout', hlists'⟩ := h'.lists c'
  refine ⟨out, out', hout, hout', fun key => ?_⟩
  have hkey := hlists.tallies rfl key
  rw [solutions_congr hsub hsup, ← hlists'.tallies rfl key] at hkey
  exact_mod_cast hkey

theorem einsum_relations_two : ∃ (ns : NodeStorage AssocMap (BitVec 64) Bool) (out out' : _),
    evaluateEinsum defaultBoolTrait ns (.first _ _) [singleLabel 97 {8, 9}, singleLabel 98 {8}] [98] =
      some out ∧
    evaluateEinsum defaultBoolTrait ns (.first _ _)
        [singleLabel 98 {8}, singleLabel 97 {8, 9}, singleLabel 98 {8}] [98] = some out' ∧
      ∀ key, weight out key = weight out' key := by
  obtain ⟨ns, roots, -, h⟩ := exists_evaluable
  have hsub : [singleLabel 98 {8}, singleLabel 97 {8, 9}, singleLabel 98 {8}] ⊆
      [singleLabel 97 {8, 9}, singleLabel 98 {8}] := by simp
  have hsup : [singleLabel 97 {8, 9}, singleLabel 98 {8}] ⊆
      [singleLabel 98 {8}, singleLabel 97 {8, 9}, singleLabel 98 {8}] := by simp
  have hleft := h [singleLabel 97 {8, 9}, singleLabel 98 {8}] (List.Subset.refl _) [98]
    (by decide) (by decide) (by decide)
  have hright := h [singleLabel 98 {8}, singleLabel 97 {8, 9}, singleLabel 98 {8}] hsub [98]
    (by decide) (by decide) (by decide)
  exact ⟨ns, einsum_relations hleft hright (fun o ho => ⟨o, hsup ho, rfl, rfl⟩)
    (fun o ho => ⟨o, hsub ho, rfl, rfl⟩) (.first _ _) (.first _ _)⟩

end Relations

section Projection

/-- Labels that are left out of the result are summed over. -/
theorem einsum_projection (h : Evaluable t ns roots operands result) (hnodup : result'.Nodup)
    (hsub : ∀ l ∈ result', l ∈ result) (c c' : EinsumChoices K V) :
    ∃ out out', evaluateEinsum t ns c operands result = some out ∧
      evaluateEinsum t ns c' operands result' = some out' ∧
      ∀ key, weight out' key =
        ((out.filter fun e => result'.map (assignmentOf result e.key) = key).map (·.value)).sum := by
  have h' : Evaluable t ns roots operands result' :=
    ⟨h.canonical, h.noCollision, h.valid, h.length, hnodup, fun l hl => h.bound l (hsub l hl)⟩
  obtain ⟨out, hout, hlists⟩ := h.lists c
  obtain ⟨out', hout', hlists'⟩ := h'.lists c'
  refine ⟨out, out', hout, hout', fun key => ?_⟩
  have hread (σ : Label → K) : result'.map (assignmentOf result (result.map σ)) = result'.map σ := by
    refine List.map_congr_left fun l hl => ?_
    have hm := hsub l hl
    have hidx := List.idxOf_lt_length_of_mem hm
    simp [assignmentOf, hidx]
  have hmapped := (hlists.mapKey fun key => result'.map (assignmentOf result key)).congr
    fun σ _ => hread σ
  have hkey := hlists'.tallies rfl key
  rw [← hmapped.tallies rfl key, weight_map_mapKey] at hkey
  exact_mod_cast hkey

theorem einsum_projection_one : ∃ (ns : NodeStorage AssocMap (BitVec 64) Bool) (out out' : _),
    evaluateEinsum defaultBoolTrait ns (.first _ _) [singleLabel 97 {8, 9}, singleLabel 98 {8}]
      [97, 98] = some out ∧
    evaluateEinsum defaultBoolTrait ns (.first _ _) [singleLabel 97 {8, 9}, singleLabel 98 {8}] [98] =
        some out' ∧
      ∀ key, weight out' key =
        ((out.filter fun e => [98].map (assignmentOf [97, 98] e.key) = key).map (·.value)).sum := by
  obtain ⟨ns, roots, -, h⟩ := exists_evaluable
  have hboth := h [singleLabel 97 {8, 9}, singleLabel 98 {8}] (List.Subset.refl _) [97, 98]
    (by decide) (by decide) (by decide)
  exact ⟨ns, einsum_projection hboth (List.nodup_singleton 98) (by decide) (.first _ _) (.first _ _)⟩

end Projection

section Products

omit [DecidableEq K] [DecidableEq V] [Inhabited K] in
theorem labelSet_append (operands operands' : List (LabelledOperand K V)) :
    labelSet (operands ++ operands') = labelSet operands ∪ labelSet operands' := by
  ext l
  simp [mem_labelSet, or_and_right, exists_or]

omit [DecidableEq K] [DecidableEq V] [Inhabited K] in
theorem constraints_append (operands operands' : List (LabelledOperand K V)) :
    constraints (operands ++ operands') = constraints operands ∩ constraints operands' := by
  ext σ
  simp [mem_constraints, or_imp, forall_and]

/-- Operands without a label in common multiply. -/
theorem einsum_product (h : Evaluable t ns roots (operands ++ operands') (result ++ result'))
    (hd : Disjoint (labelSet operands) (labelSet operands'))
    (hres : ∀ l ∈ result, l ∈ labelSet operands) (hres' : ∀ l ∈ result', l ∈ labelSet operands')
    (c c₁ c₂ : EinsumChoices K V) :
    ∃ out out₁ out₂, evaluateEinsum t ns c (operands ++ operands') (result ++ result') = some out ∧
      evaluateEinsum t ns c₁ operands result = some out₁ ∧
      evaluateEinsum t ns c₂ operands' result' = some out₂ ∧
      ∀ key key', key.length = result.length →
        weight out (key ++ key') = weight out₁ key * weight out₂ key' := by
  have hlen := h.length
  rw [List.length_append] at hlen
  obtain ⟨hn, hn', -⟩ := List.nodup_append.mp h.nodup
  have h₁ : Evaluable t ns roots operands result := ⟨h.canonical, h.noCollision,
    fun o ho => h.valid o (List.mem_append_left _ ho), by omega, hn, hres⟩
  have h₂ : Evaluable t ns roots operands' result' := ⟨h.canonical, h.noCollision,
    fun o ho => h.valid o (List.mem_append_right _ ho), by omega, hn', hres'⟩
  obtain ⟨out, hout, hlists⟩ := h.lists c
  obtain ⟨out₁, hout₁, hlists₁⟩ := h₁.lists c₁
  obtain ⟨out₂, hout₂, hlists₂⟩ := h₂.lists c₂
  refine ⟨out, out₁, out₂, hout, hout₁, hout₂, fun key key' hkey => ?_⟩
  have hsplit : {σ ∈ solutions (operands ++ operands') | (result ++ result').map σ = key ++ key'} =
      (fun p : (Label → K) × (Label → K) => (labelSet operands).piecewise p.1 p.2) ''
        ({σ ∈ solutions operands | result.map σ = key} ×ˢ
          {σ ∈ solutions operands' | result'.map σ = key'}) := by
    have hinter := Assignment.solutions_inter hd (dependsOn_constraints operands)
      (dependsOn_constraints operands')
    have hleft (σ τ : Label → K) : result.map ((labelSet operands).piecewise σ τ) = result.map σ :=
      List.map_congr_left fun l hl => Finset.piecewise_eq_of_mem _ _ _ (hres l hl)
    have hright (σ τ : Label → K) : result'.map ((labelSet operands).piecewise σ τ) = result'.map τ :=
      List.map_congr_left fun l hl =>
        Finset.piecewise_eq_of_notMem _ _ _ (Finset.disjoint_right.mp hd (hres' l hl))
    ext σ
    rw [LabelledOperand.solutions, labelSet_append, constraints_append, hinter]
    simp only [List.map_append, Set.mem_sep_iff, Set.mem_image, Set.mem_prod, Prod.exists]
    constructor
    · rintro ⟨⟨σ₁, σ₂, ⟨hσ₁, hσ₂⟩, rfl⟩, hread⟩
      rw [hleft, hright] at hread
      obtain ⟨hread₁, hread₂⟩ := List.append_inj hread (by simpa using hkey.symm)
      exact ⟨σ₁, σ₂, ⟨⟨hσ₁, hread₁⟩, hσ₂, hread₂⟩, rfl⟩
    · rintro ⟨σ₁, σ₂, ⟨⟨hσ₁, rfl⟩, hσ₂, rfl⟩, rfl⟩
      exact ⟨⟨σ₁, σ₂, ⟨hσ₁, hσ₂⟩, rfl⟩, by rw [hleft, hright]⟩
  have hinj := (Assignment.injOn_piecewise (C := constraints operands) (D := constraints operands') hd).mono
    (Set.prod_mono (fun σ hσ => hσ.1) fun σ hσ => hσ.1 :
      {σ ∈ solutions operands | result.map σ = key} ×ˢ
        {σ ∈ solutions operands' | result'.map σ = key'} ⊆ _)
  have htotal := hlists.tallies rfl (key ++ key')
  rw [hsplit, hinj.encard_image, Set.encard_prod, ← hlists₁.tallies rfl key,
    ← hlists₂.tallies rfl key'] at htotal
  exact_mod_cast htotal

theorem einsum_product_two : ∃ (ns : NodeStorage AssocMap (BitVec 64) Bool) (out out₁ out₂ : _),
    evaluateEinsum defaultBoolTrait ns (.first _ _) ([singleLabel 97 {8, 9}] ++ [singleLabel 98 {8}])
      ([97] ++ []) = some out ∧
    evaluateEinsum defaultBoolTrait ns (.first _ _) [singleLabel 97 {8, 9}] [97] = some out₁ ∧
    evaluateEinsum defaultBoolTrait ns (.first _ _) [singleLabel 98 {8}] [] = some out₂ ∧
      ∀ key key', key.length = [97].length →
        weight out (key ++ key') = weight out₁ key * weight out₂ key' := by
  obtain ⟨ns, roots, -, h⟩ := exists_evaluable
  have hboth := h ([singleLabel 97 {8, 9}] ++ [singleLabel 98 {8}]) (List.Subset.refl _) ([97] ++ [])
    (by decide) (by decide) (by decide)
  exact ⟨ns, einsum_product hboth (by decide) (by decide) (by decide) (.first _ _) (.first _ _)
    (.first _ _)⟩

end Products

section Sums

omit [Inhabited K] in
theorem constraint_union (hl₁ : o₁.labels = o.labels) (hl₂ : o₂.labels = o.labels)
    (hunion : o.entries = o₁.entries ∪ o₂.entries) :
    o.constraint = o₁.constraint ∪ o₂.constraint := by
  ext σ
  simp [constraint, rows, table, hl₁, hl₂, hunion, or_and_right, exists_or]

theorem disjoint_constraint {F : Nat → Finset (SingleEntry K V) → Prop} (hv : o.Valid t F ns)
    (hl₁ : o₁.labels = o.labels) (hl₂ : o₂.labels = o.labels)
    (hunion : o.entries = o₁.entries ∪ o₂.entries) (hd : Disjoint o₁.entries o₂.entries) :
    Disjoint o₁.constraint o₂.constraint := by
  rw [Set.disjoint_left]
  rintro σ ⟨e₁, he₁, hkey₁⟩ ⟨e₂, he₂, hkey₂⟩
  have hkeys : e₁.key = e₂.key := by rw [hkey₁, hkey₂, hl₁, hl₂]
  have heq := hv.holds.entrySet.unique e₁ (hunion ▸ Finset.mem_union_left _ he₁) e₂
    (hunion ▸ Finset.mem_union_right _ he₂) hkeys
  exact Finset.disjoint_left.mp hd he₁ (heq ▸ he₂)

/-- An operand whose entries are those of two others adds up what these give. -/
theorem einsum_sum (h : Evaluable t ns roots (o :: operands) result)
    (hv₁ : o₁.Valid t (Live roots) ns) (hv₂ : o₂.Valid t (Live roots) ns)
    (hl₁ : o₁.labels = o.labels) (hl₂ : o₂.labels = o.labels)
    (hunion : o.entries = o₁.entries ∪ o₂.entries) (hd : Disjoint o₁.entries o₂.entries)
    (c c₁ c₂ : EinsumChoices K V) :
    ∃ out out₁ out₂, evaluateEinsum t ns c (o :: operands) result = some out ∧
      evaluateEinsum t ns c₁ (o₁ :: operands) result = some out₁ ∧
      evaluateEinsum t ns c₂ (o₂ :: operands) result = some out₂ ∧
      ∀ key, weight out key = weight out₁ key + weight out₂ key := by
  have hlabels (o' : LabelledOperand K V) (hl : o'.labels = o.labels) :
      labelSet (o' :: operands) = labelSet (o :: operands) := by
    rw [labelSet_cons, labelSet_cons, hl]
  have hpart (o' : LabelledOperand K V) (hv : o'.Valid t (Live roots) ns) (hl : o'.labels = o.labels) :
      Evaluable t ns roots (o' :: operands) result := by
    refine ⟨h.canonical, h.noCollision, fun o'' ho'' => ?_, h.length, h.nodup, ?_⟩
    · rcases List.mem_cons.mp ho'' with rfl | ho''
      · exact hv
      · exact h.valid o'' (List.mem_cons_of_mem _ ho'')
    · rw [hlabels o' hl]
      exact h.bound
  obtain ⟨out, hout, hlists⟩ := h.lists c
  obtain ⟨out₁, hout₁, hlists₁⟩ := (hpart o₁ hv₁ hl₁).lists c₁
  obtain ⟨out₂, hout₂, hlists₂⟩ := (hpart o₂ hv₂ hl₂).lists c₂
  refine ⟨out, out₁, out₂, hout, hout₁, hout₂, fun key => ?_⟩
  have hsolutions : solutions (o :: operands) =
      solutions (o₁ :: operands) ∪ solutions (o₂ :: operands) := by
    simp only [LabelledOperand.solutions, hlabels o₁ hl₁, hlabels o₂ hl₂, constraints,
      constraint_union hl₁ hl₂ hunion, Assignment.solutions]
    ext σ
    simp only [Set.mem_ofPred_eq, Set.mem_inter_iff, Set.mem_union]
    tauto
  have hdisjoint : Disjoint (solutions (o₁ :: operands)) (solutions (o₂ :: operands)) := by
    have hc := disjoint_constraint (h.valid o List.mem_cons_self) hl₁ hl₂ hunion hd
    exact hc.mono (fun σ hσ => hσ.1.1) fun σ hσ => hσ.1.1
  have happend := (hlists₁.append hlists₂ hdisjoint).tallies rfl key
  have hkey := hlists.tallies rfl key
  rw [hsolutions, ← happend, weight_append] at hkey
  exact_mod_cast hkey

theorem einsum_sum_two : ∃ (ns : NodeStorage AssocMap (BitVec 64) Bool) (out out₁ out₂ : _),
    evaluateEinsum defaultBoolTrait ns (.first _ _) [singleLabel 97 {8, 9}, singleLabel 98 {8}] [97] =
      some out ∧
    evaluateEinsum defaultBoolTrait ns (.first _ _) [singleLabel 97 {8}, singleLabel 98 {8}] [97] =
      some out₁ ∧
    evaluateEinsum defaultBoolTrait ns (.first _ _) [singleLabel 97 {9}, singleLabel 98 {8}] [97] =
      some out₂ ∧
      ∀ key, weight out key = weight out₁ key + weight out₂ key := by
  obtain ⟨ns, roots, hv, h⟩ := exists_evaluable
  have hboth := h [singleLabel 97 {8, 9}, singleLabel 98 {8}] (List.Subset.refl _) [97]
    (by decide) (by decide) (by decide)
  exact ⟨ns, einsum_sum hboth (hv 97 {8} (by simp)) (hv 97 {9} (by simp)) rfl rfl (by decide)
    (by decide) (.first _ _) (.first _ _) (.first _ _)⟩

end Sums

end Hypertrie
