import Hypertrie.EinsumBool
import Hypertrie.QueryFlags
import Hypertrie.QueryPruning

/-! The evaluation of unions of conjunctions: the values of the entries with a key sum up
to the number of solutions with that key, over all alternatives of the union. -/

namespace Hypertrie

open UnorderedMap Weighted LabelledOperand Assignment

variable {M : Type → Type → Type} [UnorderedMap M] {K V D : Type}
variable [DecidableEq K] [Inhabited K]

namespace Query

section Evaluation

variable {t : HypertrieTrait K V} {F : Nat → Finset (SingleEntry K V) → Prop}
variable {ns : NodeStorage M K V} {boolValued : Bool} {operands : List (LabelledOperand K V)}
variable {projVars : List Label} {g : DirectedLabelledGraph}
variable [Zero D] [LT D] [DecidableLT D]

/-- The union of the alternatives of a query, some of whose operands may be empty. -/
structure HeldUnion (t : HypertrieTrait K V) (F : Nat → Finset (SingleEntry K V) → Prop)
    (ns : NodeStorage M K V) (g : DirectedLabelledGraph) (operands : List (LabelledOperand K V))
    (projVars : List Label) : Prop where
  blocks : Blocks g
  varIds : g.varIds = operands.map (·.labels)
  held : ∀ o ∈ operands, o.Held t F ns
  length : operands.length < posTypeCount
  nodup : projVars.Nodup

/-- Either all entries are generated, or there is one entry with the number of solutions. -/
inductive Evaluates (boolValued : Bool) (hash : Entry K → BitVec 64)
    (A : Set (List Nat × (Label → K))) (f : List Nat × (Label → K) → List K) :
    List (Entry K) → Prop where
  | generated {out : List (Entry K)} (h : Lists (!boolValued) out A f)
      (hone : boolValued = true → ∀ e ∈ out, e.value = 1) :
      Evaluates boolValued hash A f (if boolValued then distinctEntries hash [] out else out)
  | single {e : Entry K} (hkey : ∀ p ∈ A, f p = e.key) (h : Counts (!boolValued) e.value A)
      (hle : boolValued = true → e.value ≤ 1) : Evaluates boolValued hash A f [e]

omit [Inhabited K] in
theorem Evaluates.image {hash : Entry K → BitVec 64} {A : Set (List Nat × (Label → K))}
    {ρ : List Nat × (Label → K) → List Nat × (Label → K)} {f : List Nat × (Label → K) → List K}
    {out : List (Entry K)} (h : Evaluates boolValued hash A (f ∘ ρ) out) (hi : Set.InjOn ρ A) :
    Evaluates boolValued hash (ρ '' A) f out := by
  cases h with
  | generated h hone => exact .generated ((Lists.image hi).mpr h) hone
  | single hkey h hle => exact .single (Set.forall_mem_image.mpr hkey) ((Counts.image hi).mpr h) hle

omit [Inhabited K] in
/-- Without the filter the values of the entries add up to the number of solutions. -/
theorem Evaluates.tallies {hash : Entry K → BitVec 64} {A : Set (List Nat × (Label → K))}
    {f : List Nat × (Label → K) → List K} {out : List (Entry K)}
    (h : Evaluates false hash A f out) : Tallies out A f := by
  cases h with
  | generated h _ => exact h.tallies rfl
  | single hkey h _ => exact Tallies.single (h.encard rfl) hkey

theorem Evaluates.weight_eq {hash : Entry K → BitVec 64} {out : List (Entry K)}
    (h : Evaluates false hash (unionSolutions operands g.unionComponents) (fun p => projVars.map p.2) out)
    (key : List K) : (weight out key : ℕ∞) = multiplicity g operands projVars key :=
  (h.tallies key).trans (encard_unionSolutions (Components.nodup_connectedComponents
    (DirectedLabelledGraph.nodup_vertices g)) projVars key)

namespace HeldUnion

omit [DecidableEq K]

variable {vs : List Nat}

theorem lt_of_component (h : HeldUnion t F ns g operands projVars) (hvs : vs ∈ g.unionComponents) :
    ∀ v ∈ vs, v < operands.length := by
  intro v hv
  have hlt := lt_of_mem_unionComponents hvs hv
  rwa [DirectedLabelledGraph.size, h.varIds, List.length_map] at hlt

/-- An alternative is a union by itself. -/
theorem component (h : HeldUnion t F ns g operands projVars) (hvs : vs ∈ g.unionComponents) :
    HeldUnion t F ns (g.subgraph vs) (componentOperands operands vs) projVars := by
  have hlt := h.lt_of_component hvs
  have hle : vs.length ≤ operands.length := by
    have hle := (Components.sublist_of_mem hvs).length_le
    rwa [DirectedLabelledGraph.vertices, List.length_range, DirectedLabelledGraph.size, h.varIds,
      List.length_map] at hle
  refine ⟨(h.blocks.block_unionComponent hvs).toBlocks, varIds_componentOperands h.varIds hlt,
    fun o ho => h.held o (mem_of_mem_componentOperands ho), ?_, h.nodup⟩
  rw [length_componentOperands hlt]
  exact hle.trans_lt h.length

theorem unionComponents_component (h : HeldUnion t F ns g operands projVars)
    (hvs : vs ∈ g.unionComponents) :
    (g.subgraph vs).unionComponents = [List.range vs.length] := by
  have hvertices : (g.subgraph vs).vertices = List.range vs.length := by
    rw [DirectedLabelledGraph.vertices, DirectedLabelledGraph.size_subgraph]
  have hne : List.range vs.length ≠ [] := by
    have hpos := List.length_pos_iff.mpr (Components.ne_nil_of_mem hvs)
    exact List.ne_nil_of_length_pos (by rwa [List.length_range])
  rw [← hvertices] at hne ⊢
  exact Components.eq_singleton (DirectedLabelledGraph.nodup_vertices (g.subgraph vs)) hne
    (h.blocks.block_unionComponent hvs).length_unionComponents

theorem componentOperands_component (h : HeldUnion t F ns g operands projVars)
    (hvs : vs ∈ g.unionComponents) :
    componentOperands (componentOperands operands vs) (List.range vs.length) =
      componentOperands operands vs := by
  rw [← length_componentOperands (h.lt_of_component hvs), componentOperands_range]

end HeldUnion

omit [DecidableEq K] in
theorem unionSolutions_of_size_eq_zero (operands : List (LabelledOperand K V)) (hsize : g.size = 0) :
    unionSolutions operands g.unionComponents = ∅ := by
  refine Set.eq_empty_iff_forall_notMem.mpr ?_
  rintro ⟨vs, σ⟩ ⟨hvs, -⟩
  obtain ⟨v, hv⟩ := List.exists_mem_of_ne_nil _ (Components.ne_nil_of_mem hvs)
  have hlt := lt_of_mem_unionComponents hvs hv
  omega

variable [DecidableEq V]

theorem evaluate_spec (hr : Readable t F ns) (h : HeldUnion t F ns g operands projVars)
    (c : Choices K V D) (boolValued : Bool) (hash : Entry K → BitVec 64) :
    Ensures (evaluate (M := M) t ns c .exact boolValued projVars hash g (operands.map (·.hypertrie)))
      (Evaluates boolValued hash (unionSolutions operands g.unionComponents)
        fun p => projVars.map p.2) := by
  rw [evaluate]
  refine Ensures.bind (pruneEmptyOperands_spec h.blocks h.varIds h.held h.length h.nodup) ?_
  rintro _ ⟨g, operands, ρ, rfl, hu, hprunes⟩
  rw [hprunes.solutions]
  have himage (out : List (Entry K)) (hout : Evaluates boolValued hash
      (unionSolutions operands g.unionComponents) (fun p => projVars.map p.2) out) :
      Evaluates boolValued hash ((fun p => (ρ p.1, p.2)) '' unionSolutions operands g.unionComponents)
        (fun p => projVars.map p.2) out := hout.image hprunes.injOn
  refine Ensures.mono ?_ himage
  by_cases hsize : g.size = 0
  · simp only [hsize, if_true]
    rw [unionSolutions_of_size_eq_zero operands hsize]
    refine Ensures.pure ?_
    have hnil : Evaluates boolValued hash ∅ (fun p : List Nat × (Label → K) => projVars.map p.2)
        (if boolValued then distinctEntries hash [] [] else []) := .generated (.nil _) (by simp)
    simpa [distinctEntries] using hnil
  · have hne : operands ≠ [] := by
      rintro rfl
      exact hsize hu.size_eq
    have hkey : (Entry.makeFilled (K := K) projVars.length 1).key = unbound projVars := rfl
    simp only [if_neg hsize, removeRank0Operands_eq hu, Option.bind_eq_bind, Option.bind_some]
    by_cases hd : allResultDone projVars g = true
    · rw [if_pos hd]
      have hle : Ensures ((operatorOf (M := M) t ns c .exact boolValued projVars g).singleResult g
          (operands.map (·.hypertrie)) (Entry.makeFilled projVars.length 1))
          (fun e => boolValued = true → e.value ≤ 1) := by
        cases boolValued with
        | true => exact (hu.singleResult_flags hr c hd List.length_replicate).mono fun _ h _ => h
        | false =>
          exact (hu.singleResult_spec hr hne c false hd List.length_replicate).mono
            fun _ _ h => by cases h
      apply Ensures.map
      refine ((hu.singleResult_spec hr hne c boolValued hd List.length_replicate).and hle).mono ?_
      rintro e ⟨⟨hkey', hcount⟩, hle⟩
      refine .single ?_ hcount hle
      rintro ⟨vs, σ⟩ ⟨hvs, hσ⟩
      have hlabels := (hu.component hvs).done_iff.mp (hu.done_component hd hvs)
      rw [hkey', hkey, ← fill_unbound hσ.2]
      exact fill_eq_self List.length_replicate hlabels
    · have hd' : allResultDone projVars g = false := by simpa using hd
      have hone : Ensures ((operatorOf (M := M) t ns c .exact boolValued projVars g).generator g
          (operands.map (·.hypertrie)) (Entry.makeFilled projVars.length 1))
          (fun res => boolValued = true → ∀ e ∈ res.1, e.value = 1) := by
        cases boolValued with
        | true => exact (hu.generator_flags hr c hd' hkey).mono fun _ h _ => h
        | false => exact (hu.generator_spec hr hne c false hd' hkey).mono fun _ _ h => by cases h
      rw [if_neg hd]
      refine Ensures.bind ((hu.generator_spec hr hne c boolValued hd' hkey).and hone) ?_
      rintro ⟨out, e⟩ ⟨hout, hone⟩
      exact Ensures.pure (.generated hout hone)

/-- Asking finds out whether an alternative has a solution. -/
theorem evaluateAsk_spec (hr : Readable t F ns) (h : HeldUnion t F ns g operands [])
    (c : Choices K V D) :
    Ensures (evaluateAsk (M := M) t ns c [] g (operands.map (·.hypertrie)))
      (· = true ↔ (unionSolutions operands g.unionComponents).Nonempty) := by
  rw [evaluateAsk]
  refine Ensures.bind (pruneEmptyOperands_spec h.blocks h.varIds h.held h.length h.nodup) ?_
  rintro _ ⟨g, operands, ρ, rfl, hu, hprunes⟩
  rw [hprunes.solutions, Set.image_nonempty]
  by_cases hsize : g.size = 0
  · simp only [hsize, if_true]
    rw [unionSolutions_of_size_eq_zero operands hsize]
    exact Ensures.pure (by simp)
  · have hne : operands ≠ [] := by
      rintro rfl
      exact hsize hu.size_eq
    simp only [if_neg hsize, removeRank0Operands_eq hu, Option.bind_eq_bind, Option.bind_some]
    refine Ensures.bind (hu.singleResult_spec hr hne c true rfl rfl) ?_
    rintro e ⟨-, hcount⟩
    refine Ensures.pure ?_
    rw [decide_eq_true_eq]
    exact hcount.ne_zero_iff

end Evaluation

section Examples

/-- All estimates are the same. -/
def Choices.constant (K V : Type) : Choices K V Nat where
  std := .merge
  infinity := 0
  calcCard _ _ _ _ := 0
  estimate _ _ _ := 0

/-- The union of a conjunction of two operands with the variable `a` and of one operand with the
variable `b`. -/
def unionGraph : DirectedLabelledGraph where
  varIds := [[97], [97], [98]]
  edges := [⟨0, 1, 97, false⟩, ⟨1, 0, 97, false⟩]

def unionOperands : List (LabelledOperand (BitVec 64) Bool) :=
  [singleLabel 97 {8, 9}, singleLabel 97 {8, 9}, singleLabel 98 {7}]

theorem blocks_unionGraph : Blocks unionGraph :=
  .of_numbers (· / 2) (by decide) (by decide) (by decide) (by decide) (by decide) (by decide)

theorem exists_unionOperands : ∃ (ns : NodeStorage AssocMap (BitVec 64) Bool)
    (roots : Multiset (Root (BitVec 64) Bool)), Canonical defaultBoolTrait ns roots ∧
      NoCollision defaultBoolTrait roots ∧ ∀ projVars : List Label, projVars.Nodup →
        HeldUnion defaultBoolTrait (Live roots) ns unionGraph unionOperands projVars := by
  obtain ⟨ns, roots, hc, hn, hv⟩ := exists_singleLabel
  have held {o : LabelledOperand (BitVec 64) Bool} (h : o.Valid defaultBoolTrait (Live roots) ns) :
      o.Held defaultBoolTrait (Live roots) ns :=
    ⟨h.holds, h.depth, h.labels, fun hempty => absurd hempty h.nonempty.ne_empty⟩
  refine ⟨ns, roots, hc, hn, fun projVars hnodup => ⟨blocks_unionGraph, rfl, ?_, by decide, hnodup⟩⟩
  rw [unionOperands, List.forall_mem_cons, List.forall_mem_cons, List.forall_mem_singleton]
  exact ⟨held (hv 97).2, held (hv 97).2, held (hv 98).1⟩

end Examples

section Results

variable {t : HypertrieTrait K V} {roots : Multiset (Root K V)} {ns : NodeStorage M K V}
variable {operands : List (LabelledOperand K V)} {projVars : List Label} {g : DirectedLabelledGraph}
variable [Zero D] [LT D] [DecidableLT D]

omit [DecidableEq K] in
theorem multiplicity_eq (g : DirectedLabelledGraph) (operands : List (LabelledOperand K V))
    (projVars : List Label) (key : List K) : multiplicity g operands projVars key =
      {p ∈ unionSolutions operands g.unionComponents | projVars.map p.2 = key}.encard :=
  (encard_unionSolutions (Components.nodup_connectedComponents
    (DirectedLabelledGraph.nodup_vertices g)) projVars key).symm

variable [DecidableEq V]

/-- The values of the entries with a key sum up to how often it is a solution. There is an entry
with the value 0 only if there is no solution at all. -/
theorem evaluate_counts (hc : Canonical t ns roots) (hn : NoCollision t roots)
    (h : HeldUnion t (Live roots) ns g operands projVars) (c : Choices K V D)
    (hash : Entry K → BitVec 64) :
    ∃ out, evaluate (M := M) t ns c .exact false projVars hash g (operands.map (·.hypertrie)) = some out ∧
      (∀ key, (weight out key : ℕ∞) = multiplicity g operands projVars key) ∧
      ∀ e ∈ out, e.value = 0 → ∀ key, multiplicity g operands projVars key = 0 := by
  obtain ⟨out, hout, hevaluates⟩ := evaluate_spec (hc.readable hn) h c false hash
  refine ⟨out, hout, hevaluates.weight_eq, fun e he hzero key => ?_⟩
  cases hevaluates with
  | generated hlists _ => exact absurd hzero (hlists.value rfl e he)
  | @single e' hkey hcount _ =>
    obtain rfl := List.mem_singleton.mp he
    have hempty : unionSolutions operands g.unionComponents = ∅ :=
      Set.not_nonempty_iff_eq_empty.mp fun hne => hcount.ne_zero_iff.mpr hne hzero
    simp [multiplicity_eq, hempty]

theorem evaluate_counts_union : ∃ (ns : NodeStorage AssocMap (BitVec 64) Bool) (out : _),
    evaluate (M := AssocMap) defaultBoolTrait ns (.constant _ _) .exact false [97, 98] (fun _ => 0) unionGraph
      (unionOperands.map (·.hypertrie)) = some out ∧
    ∀ key, (weight out key : ℕ∞) = multiplicity unionGraph unionOperands [97, 98] key := by
  obtain ⟨ns, roots, hc, hn, h⟩ := exists_unionOperands
  obtain ⟨out, hout, hweight, -⟩ := evaluate_counts hc hn (h [97, 98] (by decide)) (.constant _ _)
    (fun _ => 0)
  exact ⟨ns, out, hout, hweight⟩

/-- Different entries that may be yielded have different hashes. -/
def NoHashCollision (hash : Entry K → BitVec 64) (g : DirectedLabelledGraph)
    (operands : List (LabelledOperand K V)) (projVars : List Label) : Prop :=
  Set.InjOn hash {e | multiplicity g operands projVars e.key ≠ 0 ∧ e.value = 1}

omit [DecidableEq K] [DecidableEq V] in
theorem multiplicity_ne_zero {key : List K} : multiplicity g operands projVars key ≠ 0 ↔
    ∃ p ∈ unionSolutions operands g.unionComponents, projVars.map p.2 = key := by
  rw [multiplicity_eq, Set.encard_ne_zero]
  exact Iff.rfl

/-- Without duplicates each key of a solution is yielded once and with the value true; the value
false is yielded only if there is no solution at all. -/
theorem evaluate_distinct (hc : Canonical t ns roots) (hn : NoCollision t roots)
    (h : HeldUnion t (Live roots) ns g operands projVars) (c : Choices K V D)
    {hash : Entry K → BitVec 64} (hhash : NoHashCollision hash g operands projVars) :
    ∃ out, evaluate (M := M) t ns c .exact true projVars hash g (operands.map (·.hypertrie)) = some out ∧
      (out.map (·.key)).Nodup ∧
      (∀ key, ⟨key, 1⟩ ∈ out ↔ multiplicity g operands projVars key ≠ 0) ∧
      ∀ e ∈ out, e.value = 1 ∨ e.value = 0 ∧ ∀ key, multiplicity g operands projVars key = 0 := by
  obtain ⟨out, hout, hevaluates⟩ := evaluate_spec (hc.readable hn) h c true hash
  refine ⟨out, hout, ?_⟩
  cases hevaluates with
  | @generated out hlists hone =>
    have hone := hone rfl
    have hpossible (e) (he : e ∈ out) : multiplicity g operands projVars e.key ≠ 0 ∧ e.value = 1 :=
      ⟨multiplicity_ne_zero.mpr ((hlists.covers e.key).mp (List.mem_map_of_mem he)), hone e he⟩
    have hinj (e) (he : e ∈ out) (e') (he' : e' ∈ out) (heq : hash e = hash e') : e = e' :=
      hhash (hpossible e he) (hpossible e' he') heq
    have hmem (e : Entry K) : e ∈ distinctEntries hash [] out ↔ e ∈ out :=
      (mem_distinctEntries hinj).trans (and_iff_left List.not_mem_nil)
    rw [if_pos rfl]
    refine ⟨?_, fun key => ?_, fun e he => .inl (hone e ((hmem e).mp he))⟩
    · refine List.Nodup.map_on (fun e he e' he' hkey => ?_) (nodup_distinctEntries hinj)
      have hvalue := (hone e ((hmem e).mp he)).trans (hone e' ((hmem e').mp he')).symm
      cases e
      cases e'
      cases hkey
      cases hvalue
      rfl
    · rw [hmem, multiplicity_ne_zero]
      refine Iff.trans ?_ (hlists.covers key)
      rw [List.mem_map]
      constructor
      · exact fun hin => ⟨_, hin, rfl⟩
      · rintro ⟨e, he, rfl⟩
        have hin : (⟨e.key, e.value⟩ : Entry K) ∈ out := he
        rwa [hone e he] at hin
  | @single e hkey hcount hle =>
    have hle := hle rfl
    refine ⟨List.nodup_singleton _, fun key => ?_, fun e' he' => ?_⟩
    · rw [List.mem_singleton, multiplicity_ne_zero]
      constructor
      · rintro rfl
        obtain ⟨p, hp⟩ := hcount.ne_zero_iff.mp Nat.one_ne_zero
        exact ⟨p, hp, hkey p hp⟩
      · rintro ⟨p, hp, rfl⟩
        have hvalue := eq_one_of_ne_zero hle (hcount.ne_zero_iff.mpr ⟨p, hp⟩)
        rw [hkey p hp, ← hvalue]
    · obtain rfl := List.mem_singleton.mp he'
      by_cases hv : e'.value = 0
      · refine .inr ⟨hv, fun key => ?_⟩
        have hempty : unionSolutions operands g.unionComponents = ∅ :=
          Set.not_nonempty_iff_eq_empty.mp fun hne => hcount.ne_zero_iff.mpr hne hv
        simp [multiplicity_eq, hempty]
      · exact .inl (eq_one_of_ne_zero hle hv)

theorem evaluate_distinct_union : ∃ (ns : NodeStorage AssocMap (BitVec 64) Bool) (out : _),
    evaluate (M := AssocMap) defaultBoolTrait ns (.constant _ _) .exact true [97] (fun e => e.key.headD 0)
      unionGraph (unionOperands.map (·.hypertrie)) = some out ∧ (out.map (·.key)).Nodup ∧
    ∀ key, ⟨key, 1⟩ ∈ out ↔ multiplicity unionGraph unionOperands [97] key ≠ 0 := by
  obtain ⟨ns, roots, hc, hn, h⟩ := exists_unionOperands
  have hhash : NoHashCollision (fun e => e.key.headD 0) unionGraph unionOperands [97] := by
    rintro ⟨key, value⟩ ⟨hkey, rfl⟩ ⟨key', value'⟩ ⟨hkey', rfl⟩ heq
    obtain ⟨p, -, rfl⟩ := multiplicity_ne_zero.mp hkey
    obtain ⟨p', -, rfl⟩ := multiplicity_ne_zero.mp hkey'
    exact congrArg (fun keyPart => (⟨[keyPart], 1⟩ : Entry (BitVec 64))) heq
  obtain ⟨out, hout, hnodup, hkeys, -⟩ := evaluate_distinct hc hn (h [97] (by decide)) (.constant _ _)
    hhash
  exact ⟨ns, out, hout, hnodup, hkeys⟩

/-- Asking says whether an alternative has a solution. -/
theorem evaluateAsk_iff (hc : Canonical t ns roots) (hn : NoCollision t roots)
    (h : HeldUnion t (Live roots) ns g operands []) (c : Choices K V D) :
    ∃ answer, evaluateAsk (M := M) t ns c [] g (operands.map (·.hypertrie)) = some answer ∧
      (answer = true ↔ ∃ vs ∈ g.unionComponents, (solutions (componentOperands operands vs)).Nonempty) := by
  obtain ⟨answer, hanswer, hiff⟩ := evaluateAsk_spec (hc.readable hn) h c
  refine ⟨answer, hanswer, hiff.trans ⟨?_, ?_⟩⟩
  · rintro ⟨⟨vs, σ⟩, hvs, hσ⟩
    exact ⟨vs, hvs, σ, hσ⟩
  · rintro ⟨vs, hvs, σ, hσ⟩
    exact ⟨(vs, σ), hvs, hσ⟩

theorem evaluateAsk_iff_union : ∃ (ns : NodeStorage AssocMap (BitVec 64) Bool) (answer : Bool),
    evaluateAsk (M := AssocMap) defaultBoolTrait ns (.constant _ _) [] unionGraph
      (unionOperands.map (·.hypertrie)) = some answer ∧
    (answer = true ↔ ∃ vs ∈ unionGraph.unionComponents,
      (solutions (componentOperands unionOperands vs)).Nonempty) := by
  obtain ⟨ns, roots, hc, hn, h⟩ := exists_unionOperands
  obtain ⟨answer, hanswer⟩ := evaluateAsk_iff hc hn (h [] List.nodup_nil) (.constant _ _)
  exact ⟨ns, answer, hanswer⟩

/-- The evaluation of a conjunction counts its solutions. -/
theorem evaluate_tallies (hr : Readable t F ns) (hp : Problem t F ns operands projVars)
    (hlen : operands.length < posTypeCount) (hne : operands ≠ []) (hb : Block g)
    (hvarIds : g.varIds = operands.map (·.labels)) (c : Choices K V D) (hash : Entry K → BitVec 64) :
    Ensures (evaluate (M := M) t ns c .exact false projVars hash g (operands.map (·.hypertrie)))
      (Tallies · (solutions operands) (projVars.map ·)) := by
  have hheld : HeldUnion t F ns g operands projVars :=
    ⟨hb.toBlocks, hvarIds, fun o ho => (hp.valid o ho).held, hlen, hp.nodup⟩
  have hu : UnionQuery t F ns g operands projVars := ⟨hp, hb.toBlocks, hvarIds⟩
  refine (evaluate_spec hr hheld c false hash).mono fun out hevaluates => ?_
  have htallies := hevaluates.tallies
  rwa [hu.unionSolutions_eq hb.length_unionComponents hne, Tallies.image (injOn_mk _ _)] at htallies

/-- A conjunction with all operands nonempty is evaluated as by einsum. -/
theorem evaluate_eq_einsum (hc : Canonical t ns roots) (hn : NoCollision t roots)
    (hv : ∀ o ∈ operands, o.Valid t (Live roots) ns) (hlen : operands.length < posTypeCount)
    (hne : operands ≠ []) (hb : Block g) (hvarIds : g.varIds = operands.map (·.labels))
    (hnodup : projVars.Nodup) (hproj : ∀ l ∈ projVars, l ∈ labelSet operands) (c : Choices K V D)
    (c' : EinsumChoices K V) (hash hash' : Entry K → BitVec 64) :
    ∃ out out', evaluate (M := M) t ns c .exact false projVars hash g (operands.map (·.hypertrie)) = some out ∧
      einsum (M := M) t ns c' false hash' (subscriptOf operands projVars)
        (operands.map (·.hypertrie)) = some out' ∧ ∀ key, weight out key = weight out' key := by
  have hp : Problem t (Live roots) ns operands projVars := ⟨hv, hlen.le, hnodup⟩
  obtain ⟨out, hout, htallies⟩ := evaluate_tallies (M := M) (hc.readable hn) hp hlen hne hb hvarIds c hash
  obtain ⟨out', hout', hlists⟩ := einsum_lists (M := M) (hc.readable hn) hp hproj c' hash'
  refine ⟨out, out', hout, hout', fun key => ?_⟩
  exact_mod_cast (htallies key).trans (hlists.tallies rfl key).symm

/-- A join, in a graph with one edge more than needed. -/
theorem evaluate_eq_einsum_one : ∃ (ns : NodeStorage AssocMap (BitVec 64) Bool) (out out' : _),
    evaluate (M := AssocMap) defaultBoolTrait ns (.constant _ _) .exact false [98] (fun _ => 0)
      ⟨[[97], [97], [98]], [⟨0, 1, 97, false⟩, ⟨1, 0, 97, false⟩, ⟨0, 2, 0, false⟩, ⟨2, 0, 0, false⟩,
        ⟨1, 2, 0, false⟩, ⟨2, 1, 0, false⟩, ⟨0, 1, 0, false⟩]⟩
      ([singleLabel 97 {8, 9}, singleLabel 97 {8, 9}, singleLabel 98 {7}].map (·.hypertrie)) = some out ∧
    einsum (M := AssocMap) defaultBoolTrait ns (.first _ _) false (fun _ => 0)
      (subscriptOf [singleLabel 97 {8, 9}, singleLabel 97 {8, 9}, singleLabel 98 {7}] [98])
      ([singleLabel 97 {8, 9}, singleLabel 97 {8, 9}, singleLabel 98 {7}].map (·.hypertrie)) = some out' ∧
    ∀ key, weight out key = weight out' key := by
  obtain ⟨ns, roots, hc, hn, hv⟩ := exists_singleLabel
  let g : DirectedLabelledGraph := ⟨[[97], [97], [98]], [⟨0, 1, 97, false⟩, ⟨1, 0, 97, false⟩,
    ⟨0, 2, 0, false⟩, ⟨2, 0, 0, false⟩, ⟨1, 2, 0, false⟩, ⟨2, 1, 0, false⟩, ⟨0, 1, 0, false⟩]⟩
  have hb : Block g := by
    refine ⟨.of_numbers (fun _ => 0) (by decide) (by decide) (by decide) (by decide) (by decide)
      (by decide), fun u hu v hv => ?_⟩
    have hedge : ∀ u ∈ g.vertices, ∀ v ∈ g.vertices, u = v ∨ g.hasEdge u v = true := by decide
    rcases hedge u (DirectedLabelledGraph.mem_vertices.mpr hu) v
      (DirectedLabelledGraph.mem_vertices.mpr hv) with rfl | h
    · exact .refl
    · exact Components.connected_of_edge (DirectedLabelledGraph.edge_endpoints.mpr h)
  have hvalid : ∀ o ∈ [singleLabel 97 {8, 9}, singleLabel 97 {8, 9}, singleLabel 98 {7}],
      o.Valid defaultBoolTrait (Live roots) ns := by
    simp only [List.forall_mem_cons]
    exact ⟨(hv 97).2, (hv 97).2, (hv 98).1, by simp⟩
  obtain ⟨out, out', h⟩ := evaluate_eq_einsum hc hn hvalid (by decide) (List.cons_ne_nil _ _) hb rfl
    (List.nodup_singleton 98) (by decide) (.constant _ _) (.first _ _) (fun _ => 0) (fun _ => 0)
  exact ⟨ns, out, out', h⟩

/-- Also in the graph with edges in both directions between each pair of operands, one for each label
they share. The label `'\0'` stands for edges without one. -/
theorem evaluate_conjunction (hc : Canonical t ns roots) (hn : NoCollision t roots)
    (hv : ∀ o ∈ operands, o.Valid t (Live roots) ns) (hlen : operands.length < posTypeCount)
    (hne : operands ≠ []) (hnamed : ∀ o ∈ operands, (0 : Label) ∉ o.labels) (hnodup : result.Nodup)
    (hresult : ∀ l ∈ result, l ∈ labelSet operands) (c : Choices K V D) (c' : EinsumChoices K V)
    (hash hash' : Entry K → BitVec 64) :
    ∃ out out', evaluate (M := M) t ns c .exact false result hash
        (conjunctionGraph (operands.map (·.labels))) (operands.map (·.hypertrie)) = some out ∧
      einsum (M := M) t ns c' false hash' (subscriptOf operands result)
        (operands.map (·.hypertrie)) = some out' ∧
      (∀ key, weight out key = weight out' key) ∧
      ∀ key, (∃ e ∈ out, e.key = key ∧ e.value ≠ 0) ↔ ∃ e ∈ out', e.key = key ∧ e.value ≠ 0 := by
  have hp : Problem t (Live roots) ns operands result := ⟨hv, hlen.le, hnodup⟩
  have hb := block_conjunctionGraph (List.forall_mem_map.mpr hnamed)
  obtain ⟨out, hout, htallies⟩ := evaluate_tallies (M := M) (hc.readable hn) hp hlen hne hb rfl c hash
  obtain ⟨out', hout', hlists⟩ := einsum_lists (M := M) (hc.readable hn) hp hresult c' hash'
  have hweight (key : List K) : weight out key = weight out' key := by
    exact_mod_cast (htallies key).trans (hlists.tallies rfl key).symm
  exact ⟨out, out', hout, hout', hweight, fun key => by
    rw [← weight_ne_zero_iff, ← weight_ne_zero_iff, hweight key]⟩

theorem evaluate_conjunction_three : ∃ (ns : NodeStorage AssocMap (BitVec 64) Bool) (out out' : _),
    evaluate (M := AssocMap) defaultBoolTrait ns (.constant _ _) .exact false [98, 97] (fun _ => 0)
      (conjunctionGraph [[97], [97], [98]])
      ([singleLabel 97 {8, 9}, singleLabel 97 {8, 9}, singleLabel 98 {7}].map (·.hypertrie)) = some out ∧
    einsum (M := AssocMap) defaultBoolTrait ns (.first _ _) false (fun _ => 0)
      (subscriptOf [singleLabel 97 {8, 9}, singleLabel 97 {8, 9}, singleLabel 98 {7}] [98, 97])
      ([singleLabel 97 {8, 9}, singleLabel 97 {8, 9}, singleLabel 98 {7}].map (·.hypertrie)) = some out' ∧
    (∀ key, weight out key = weight out' key) ∧
    ∀ key, (∃ e ∈ out, e.key = key ∧ e.value ≠ 0) ↔ ∃ e ∈ out', e.key = key ∧ e.value ≠ 0 := by
  obtain ⟨ns, roots, hc, hn, hv⟩ := exists_singleLabel
  have hvalid : ∀ o ∈ [singleLabel 97 {8, 9}, singleLabel 97 {8, 9}, singleLabel 98 {7}],
      o.Valid defaultBoolTrait (Live roots) ns := by
    simp only [List.forall_mem_cons]
    exact ⟨(hv 97).2, (hv 97).2, (hv 98).1, by simp⟩
  obtain ⟨out, out', h⟩ := evaluate_conjunction hc hn hvalid (by decide) (List.cons_ne_nil _ _)
    (by decide) (by decide : ([98, 97] : List Label).Nodup) (by decide) (.constant _ _) (.first _ _)
    (fun _ => 0) (fun _ => 0)
  exact ⟨ns, out, out', h⟩

omit [DecidableEq K] [DecidableEq V] [Inhabited K] in
theorem pruneEmptyOperands_eq_none (g : DirectedLabelledGraph) {ops : List (ConstHypertrie K V)}
    (h : posTypeCount ≤ ops.length) : pruneEmptyOperands g ops = none := by
  rw [pruneEmptyOperands, Evaluation.emptyOps, OperandDependencyGraph.collectLoop_eq_none h]
  rfl

/-- The same choices with another sort. -/
def withStd (c : EinsumChoices K V) (std : StdSort) : EinsumChoices K V :=
  ⟨std, c.sets, c.minCardLabel, c.minCardLabel_mem, c.iteratedPos, c.iteratedPos_lt⟩

/-- The first choices, with a sort by structural recursion. -/
def insertionChoices : EinsumChoices (BitVec 64) Bool :=
  withStd (.first _ _) OrderedStdSort.insertion.toStdSort

/-- Without operands only einsum yields an entry; a join on the label `'\0'` becomes a product; and
from 256 operands on the evaluation does not return. -/
theorem evaluate_conjunction_differs :
    (evaluate (M := AssocMap) defaultBoolTrait .empty (graphChoices fun _ => 0) .exact false []
        (fun _ => 0) (conjunctionGraph []) [] = some [] ∧
      (einsum (M := AssocMap) defaultBoolTrait .empty insertionChoices false (fun _ => 0)
        ⟨[], []⟩ []).map
        (weight · []) = some 1) ∧
    ((evaluate (M := AssocMap) defaultBoolTrait (keyStorage [(1, [[8]]), (1, [[9]])])
        (graphChoices fun _ => 0) .exact false [0] (fun _ => 0) (conjunctionGraph [[0], [0]])
        (keyOperands [(1, [[8]]), (1, [[9]])])).map (weight · [8]) = some 1 ∧
      (einsum (M := AssocMap) defaultBoolTrait (keyStorage [(1, [[8]]), (1, [[9]])]) insertionChoices
        false (fun _ => 0) ⟨[[0], [0]], [0]⟩ (keyOperands [(1, [[8]]), (1, [[9]])])).map (weight · [8]) =
          some 0) ∧
    ∃ (ns : NodeStorage AssocMap (BitVec 64) Bool) (roots : Multiset (Root (BitVec 64) Bool)) (out : _),
      Canonical defaultBoolTrait ns roots ∧
      (∀ o ∈ List.replicate 256 (singleLabel 97 {7}), o.Valid defaultBoolTrait (Live roots) ns) ∧
      evaluate defaultBoolTrait ns (graphChoices fun _ => 0) .exact false [97] (fun _ => 0)
        (conjunctionGraph (List.replicate 256 [97]))
        ((List.replicate 256 (singleLabel 97 {7})).map (·.hypertrie)) = none ∧
      einsum defaultBoolTrait ns (.first _ _) false (fun _ => 0)
        (subscriptOf (List.replicate 256 (singleLabel 97 {7})) [97])
        ((List.replicate 256 (singleLabel 97 {7})).map (·.hypertrie)) = some out := by
  refine ⟨⟨by decide +kernel, by decide +kernel⟩, ⟨by decide +kernel, by decide +kernel⟩, ?_⟩
  obtain ⟨ns, roots, hc, hn, hv⟩ := exists_singleLabel
  have hvalid : ∀ o ∈ List.replicate 256 (singleLabel 97 {7}), o.Valid defaultBoolTrait (Live roots) ns := by
    intro o ho
    rw [List.eq_of_mem_replicate ho]
    exact (hv 97).1
  have hp : Problem defaultBoolTrait (Live roots) ns (List.replicate 256 (singleLabel 97 {7})) [97] :=
    ⟨hvalid, by rw [List.length_replicate]; decide, List.nodup_singleton 97⟩
  have hresult : ∀ l ∈ [97], l ∈ labelSet (List.replicate 256 (singleLabel 97 {7})) :=
    List.forall_mem_singleton.mpr (mem_labelSet.mpr
      ⟨singleLabel 97 {7}, List.mem_replicate.mpr ⟨by decide, rfl⟩, List.mem_singleton_self _⟩)
  obtain ⟨out, hout, -⟩ := einsum_lists (M := AssocMap) (hc.readable hn) hp hresult (.first _ _)
    fun _ => 0
  refine ⟨ns, roots, out, hc, hvalid, ?_, hout⟩
  rw [evaluate, pruneEmptyOperands_eq_none _ (by rw [List.length_map, List.length_replicate]; decide)]
  rfl

/-- A union is evaluated as its alternatives are, one after the other. -/
theorem evaluate_union (hc : Canonical t ns roots) (hn : NoCollision t roots)
    (h : HeldUnion t (Live roots) ns g operands projVars) (c : Choices K V D)
    (hash : Entry K → BitVec 64) :
    ∃ out outs, evaluate (M := M) t ns c .exact false projVars hash g (operands.map (·.hypertrie)) = some out ∧
      List.Forall₂ (fun vs out => evaluate (M := M) t ns c .exact false projVars hash (g.subgraph vs)
        ((componentOperands operands vs).map (·.hypertrie)) = some out) g.unionComponents outs ∧
      ∀ key, weight out key = (outs.map (weight · key)).sum := by
  have hr := hc.readable hn
  obtain ⟨out, hout, hevaluates⟩ := evaluate_spec hr h c false hash
  have houts (cs : List (List Nat)) (hcs : ∀ vs ∈ cs, vs ∈ g.unionComponents) :
      ∃ outs, List.Forall₂ (fun vs out => evaluate (M := M) t ns c .exact false projVars hash (g.subgraph vs)
        ((componentOperands operands vs).map (·.hypertrie)) = some out) cs outs ∧
      ∀ key, ((outs.map (weight · key)).sum : ℕ∞) = (cs.map fun vs =>
        {σ ∈ solutions (componentOperands operands vs) | projVars.map σ = key}.encard).sum := by
    induction cs with
    | nil => exact ⟨[], .nil, fun key => by simp⟩
    | cons vs cs ih =>
      obtain ⟨hvs, hcs⟩ := List.forall_mem_cons.mp hcs
      obtain ⟨outs, houts, hsum⟩ := ih hcs
      obtain ⟨out, hout, hevaluates⟩ := evaluate_spec hr (h.component hvs) c false hash
      refine ⟨out :: outs, .cons hout houts, fun key => ?_⟩
      rw [List.map_cons, List.sum_cons, List.map_cons, List.sum_cons, Nat.cast_add, hsum key,
        hevaluates.weight_eq key, multiplicity, h.unionComponents_component hvs, List.map_singleton,
        List.sum_singleton, h.componentOperands_component hvs]
  obtain ⟨outs, houts, hsum⟩ := houts g.unionComponents fun _ hvs => hvs
  refine ⟨out, outs, hout, houts, fun key => ?_⟩
  exact_mod_cast (hevaluates.weight_eq key).trans (hsum key).symm

theorem evaluate_union_three : ∃ (ns : NodeStorage AssocMap (BitVec 64) Bool) (out : _) (outs : _),
    evaluate (M := AssocMap) defaultBoolTrait ns (.constant _ _) .exact false [97, 98] (fun _ => 0) unionGraph
      (unionOperands.map (·.hypertrie)) = some out ∧
    List.Forall₂ (fun vs out => evaluate (M := AssocMap) defaultBoolTrait ns (.constant _ _) .exact false [97, 98]
      (fun _ => 0) (unionGraph.subgraph vs) ((componentOperands unionOperands vs).map (·.hypertrie)) =
        some out) unionGraph.unionComponents outs ∧
    ∀ key, weight out key = (outs.map (weight · key)).sum := by
  obtain ⟨ns, roots, hc, hn, h⟩ := exists_unionOperands
  obtain ⟨out, outs, hunion⟩ := evaluate_union hc hn (h [97, 98] (by decide)) (.constant _ _) (fun _ => 0)
  exact ⟨ns, out, outs, hunion⟩

end Results

end Query

end Hypertrie
