import Hypertrie.Library.Permits
import Hypertrie.ProductOverflow
import Hypertrie.QueryOperators

/-! What the operators of a query leave alone. An operator writes the entry only at the
places of the variables of its graph, and a value of type `bool` stays one. -/

namespace Hypertrie

open UnorderedMap FullCartesianResult Weighted

variable {M : Type → Type → Type} {K V D : Type}

namespace Query

section Keys

variable {poss poss' : List Nat} {pos : Nat} {key key' key'' : List K}

/-- The keys differ only at these positions. -/
structure AgreesOutside (poss : List Nat) (key key' : List K) : Prop where
  length : key'.length = key.length
  getElem : ∀ pos, pos ∉ poss → key'[pos]? = key[pos]?

namespace AgreesOutside

theorem refl (poss : List Nat) (key : List K) : AgreesOutside poss key key :=
  ⟨rfl, fun _ _ => rfl⟩

theorem symm (h : AgreesOutside poss key key') : AgreesOutside poss key' key :=
  ⟨h.length.symm, fun pos hpos => (h.getElem pos hpos).symm⟩

theorem trans (h : AgreesOutside poss key key') (h' : AgreesOutside poss key' key'') :
    AgreesOutside poss key key'' :=
  ⟨h'.length.trans h.length, fun pos hpos => (h'.getElem pos hpos).trans (h.getElem pos hpos)⟩

theorem mono (h : AgreesOutside poss key key') (hsub : poss ⊆ poss') : AgreesOutside poss' key key' :=
  ⟨h.length, fun pos hpos => h.getElem pos fun hm => hpos (hsub hm)⟩

theorem set (hpos : pos ∈ poss) (key : List K) (part : K) : AgreesOutside poss key (key.set pos part) := by
  refine ⟨List.length_set, fun pos' hpos' => ?_⟩
  rw [List.getElem?_set_ne]
  rintro rfl
  exact hpos' hpos

/-- Writes one after the other. -/
theorem foldl_set (part : Nat → K) (poss' : List Nat) (hsub : poss' ⊆ poss) (key : List K) :
    AgreesOutside poss key (poss'.foldl (fun key pos => key.set pos (part pos)) key) := by
  induction poss' generalizing key with
  | nil => exact refl poss key
  | cons pos poss' ih =>
    obtain ⟨hpos, hsub⟩ := List.cons_subset.mp hsub
    exact (set hpos key _).trans (ih hsub _)

theorem copyKey [Inhabited K] (poss : List Nat) (key source : List K) :
    AgreesOutside poss key (copyKey poss key source) :=
  foldl_set (source.getD · default) poss (List.Subset.refl poss) key

theorem writeTuple [DecidableEq K] [Inhabited K]
    (mapping : List (List Nat)) (tuple : List (List K)) (key : List K) :
    AgreesOutside mapping.flatten key (writeTuple Hypertrie.copyKey mapping tuple key) := by
  refine ⟨Version.length_writeTuple .query mapping tuple key, fun pos hpos => ?_⟩
  refine Version.getElem?_writeTuple (fun poss hm hin => hpos ?_) .query tuple key
  exact List.mem_flatten.mpr ⟨poss, hm, hin⟩

end AgreesOutside

theorem length_clearEntry [Inhabited K] (projVars varIdsSet : List Label) (e : Entry K) :
    (clearEntry projVars varIdsSet e).key.length = e.key.length :=
  (AgreesOutside.foldl_set (fun _ => default) _ (List.Subset.refl _) e.key).length

/-- The places of the variables in an entry. -/
def places (projVars varIds : List Label) : List Nat := varIds.filterMap (projectedVarPosition projVars)

theorem mem_places {projVars varIds : List Label} : pos ∈ places projVars varIds ↔
    ∃ l ∈ varIds, projectedVarPosition projVars l = some pos := List.mem_filterMap

theorem places_subset {projVars varIds varIds' : List Label} (h : varIds ⊆ varIds') :
    places projVars varIds ⊆ places projVars varIds' := by
  intro pos hpos
  obtain ⟨l, hl, hpos⟩ := mem_places.mp hpos
  exact mem_places.mpr ⟨l, h hl, hpos⟩

end Keys

section Entries

variable {boolValued : Bool} {projVars varIds varIds' : List Label} {key : List K} {e : Entry K}

/-- What has become of an entry with this key when only these variables are written. -/
structure Framed (boolValued : Bool) (projVars varIds : List Label) (key : List K) (e : Entry K) :
    Prop where
  agrees : AgreesOutside (places projVars varIds) key e.key
  value_le : boolValued = true → e.value ≤ 1

/-- All entries that are yielded, and the one that is left. -/
def AllFramed (boolValued : Bool) (projVars varIds : List Label) (key : List K)
    (res : List (Entry K) × Entry K) : Prop :=
  (∀ e ∈ res.1, Framed boolValued projVars varIds key e) ∧ Framed boolValued projVars varIds key res.2

namespace Framed

theorem setValue {value : Nat} (h : Framed boolValued projVars varIds key e)
    (hvalue : boolValued = true → value ≤ 1) : Framed boolValued projVars varIds key (e.setValue value) :=
  ⟨h.agrees, hvalue⟩

theorem setKey {key' : List K} (h : Framed boolValued projVars varIds key e)
    (hkey : AgreesOutside (places projVars varIds) e.key key') :
    Framed boolValued projVars varIds key (e.setKey key') :=
  ⟨h.agrees.trans hkey, h.value_le⟩

theorem clear [Inhabited K] (h : Framed boolValued projVars varIds key e) (hsub : varIds' ⊆ varIds) :
    Framed boolValued projVars varIds key (clearEntry projVars varIds' e) := by
  refine h.setKey (AgreesOutside.foldl_set (fun _ => default) _ (fun pos hpos => ?_) _)
  obtain ⟨l, hl, hpos⟩ := mem_usedEntryPoss.mp hpos
  exact mem_places.mpr ⟨l, hsub hl, hpos⟩

/-- The place of a variable fits into a byte. -/
theorem writeProjected {l : Label} (h : Framed boolValued projVars varIds key e) (hl : l ∈ varIds)
    (hlen : projVars.length ≤ posTypeCount) (keyPart : K) :
    Framed boolValued projVars varIds key
      (writeProjected (projectedVarPosition projVars l) keyPart e) := by
  cases hpos : projectedVarPosition projVars l with
  | none => exact h
  | some pos =>
    have hlt := (List.getElem?_eq_some_iff.mp (projectedVarPosition_spec hpos)).1
    have hmod : pos % posTypeCount = pos := Nat.mod_eq_of_lt (by omega)
    refine h.setKey (AgreesOutside.set ?_ _ _)
    rw [hmod]
    exact mem_places.mpr ⟨l, hl, hpos⟩

end Framed

theorem AllFramed.nil (h : Framed boolValued projVars varIds key e) :
    AllFramed boolValued projVars varIds key ([], e) :=
  ⟨by simp, h⟩

theorem AllFramed.singleton (h : Framed boolValued projVars varIds key e) :
    AllFramed boolValued projVars varIds key ([e], e) :=
  ⟨by simpa using h, h⟩

theorem AllFramed.append {out rest : List (Entry K)} {e' : Entry K}
    (h : AllFramed boolValued projVars varIds key (out, e))
    (h' : AllFramed boolValued projVars varIds key (rest, e')) :
    AllFramed boolValued projVars varIds key (out ++ rest, e') :=
  ⟨List.forall_mem_append.mpr ⟨h.1, h'.1⟩, h'.2⟩

end Entries

section Graphs

variable {g : DirectedLabelledGraph}

theorem operandVarIds_subset (v : Nat) : g.operandVarIds v ⊆ g.operandsVarIdsSet := by
  intro l hl
  by_cases hv : v < g.size
  · exact DirectedLabelledGraph.mem_operandsVarIdsSet.mpr ⟨_, DirectedLabelledGraph.operandVarIds_mem hv, hl⟩
  · rw [DirectedLabelledGraph.operandVarIds, List.getD_eq_default _ _ (Nat.le_of_not_lt hv)] at hl
    cases hl

theorem operandsVarIdsSet_subgraph (vs : List Nat) :
    (g.subgraph vs).operandsVarIdsSet ⊆ g.operandsVarIdsSet := by
  intro l hl
  obtain ⟨vars, hvars, hl⟩ := DirectedLabelledGraph.mem_operandsVarIdsSet.mp hl
  obtain ⟨v, -, rfl⟩ := List.mem_map.mp hvars
  exact operandVarIds_subset v hl

theorem operandsVarIdsSet_removeVarId (x : Label) :
    (g.removeVarId x).operandsVarIdsSet ⊆ g.operandsVarIdsSet := by
  intro l hl
  obtain ⟨vars, hvars, hl⟩ := DirectedLabelledGraph.mem_operandsVarIdsSet.mp hl
  obtain ⟨vars, hvars', rfl⟩ := List.mem_map.mp hvars
  obtain ⟨v, -, rfl⟩ := List.mem_map.mp hvars'
  exact operandVarIds_subset v (List.mem_of_mem_filter hl)

theorem nonOptionalVarIdsSet_subset : g.nonOptionalVarIdsSet ⊆ g.operandsVarIdsSet := by
  intro l hl
  obtain ⟨vars, hvars, hl⟩ := List.mem_flatten.mp (mem_flatSet.mp hl)
  obtain ⟨v, -, rfl⟩ := List.mem_map.mp hvars
  exact operandVarIds_subset v hl

theorem getMinCardLabel_mem [DecidableEq K] [DecidableEq V] [LT D] [DecidableLT D] (c : Choices K V D)
    (isOptional : Bool) (projVars : List Label) (g : DirectedLabelledGraph)
    (operands : List (ConstHypertrie K V)) :
    Permits (CardinalityEstimation.getMinCardLabel c isOptional projVars g operands)
      (· ∈ g.operandsVarIdsSet) := by
  have hsub : (if isOptional then g.nonOptionalVarIdsSet else g.operandsVarIdsSet) ⊆
      g.operandsVarIdsSet := by
    cases isOptional with
    | true => exact nonOptionalVarIdsSet_subset
    | false => exact List.Subset.refl _
  rw [CardinalityEstimation.getMinCardLabel]
  cases hset : (if isOptional then g.nonOptionalVarIdsSet else g.operandsVarIdsSet) with
  | nil => exact Permits.none _
  | cons first rest =>
    rw [hset] at hsub
    cases rest with
    | nil => exact Permits.pure (hsub List.mem_cons_self)
    | cons varId varIds =>
      exact Permits.pure (hsub (CardinalityEstimation.minCardLoop_mem (fun _ hl => hl)
        List.mem_cons_self))

end Graphs

section Operators

variable {boolValued : Bool} {projVars varIds : List Label} {key : List K} {e : Entry K}
variable {sub : GraphOperator K V} {g : DirectedLabelledGraph} {operands : List (ConstHypertrie K V)}

/-- The operator writes only at the places of the variables of a graph. -/
structure GraphOperator.Frames (boolValued : Bool) (projVars : List Label) (sub : GraphOperator K V) :
    Prop where
  generator : ∀ {varIds key g operands e}, g.operandsVarIdsSet ⊆ varIds →
    Framed boolValued projVars varIds key e →
      Permits (sub.generator g operands e) (AllFramed boolValued projVars varIds key)
  singleResult : ∀ {varIds key g operands e}, g.operandsVarIdsSet ⊆ varIds →
    Framed boolValued projVars varIds key e →
      Permits (sub.singleResult g operands e) (Framed boolValued projVars varIds key)

theorem GraphOperator.Frames.entries (hs : sub.Frames boolValued projVars)
    (hsub : g.operandsVarIdsSet ⊆ varIds) (h : Framed boolValued projVars varIds key e) :
    Permits (sub.entries projVars g operands e) (AllFramed boolValued projVars varIds key) := by
  rw [GraphOperator.entries]
  split
  · refine Permits.map ((hs.singleResult hsub h).mono fun e' he' => ?_)
    split
    · exact .singleton he'
    · exact .nil he'
  · exact hs.generator hsub h

namespace JoinOperator

theorem generatorLoop_frames {label : Label} {subOdg : DirectedLabelledGraph}
    (hs : sub.Frames boolValued projVars) (hsub : subOdg.operandsVarIdsSet ⊆ varIds)
    (hlabel : label ∈ varIds) (hlen : projVars.length ≤ posTypeCount)
    (items : List (K × List (ConstHypertrie K V))) (h : Framed boolValued projVars varIds key e) :
    Permits (generatorLoop projVars sub subOdg (projectedVarPosition projVars label) items e)
      (AllFramed boolValued projVars varIds key) := by
  induction items generalizing e with
  | nil => exact Permits.pure (.nil h)
  | cons item items ih =>
    rw [generatorLoop]
    refine Permits.bind (hs.entries hsub (h.writeProjected hlabel hlen item.1)) ?_
    rintro ⟨out, e'⟩ hout
    refine Permits.bind (ih hout.2) ?_
    rintro ⟨rest, e''⟩ hrest
    exact Permits.pure (hout.append hrest)

theorem singleLoop_frames {arith : Arithmetic} {subOdg : DirectedLabelledGraph}
    (hs : sub.Frames boolValued projVars) (hsub : subOdg.operandsVarIdsSet ⊆ varIds)
    (items : List (K × List (ConstHypertrie K V))) {value : Nat} (hvalue : boolValued = true → value ≤ 1)
    (h : Framed boolValued projVars varIds key e) :
    Permits (singleLoop arith boolValued sub subOdg items value e)
      (Framed boolValued projVars varIds key) := by
  induction items generalizing value e with
  | nil => exact Permits.pure (h.setValue hvalue)
  | cons item items ih =>
    rw [singleLoop]
    refine Permits.bind (hs.singleResult hsub h) fun e' he' => ?_
    cases boolValued with
    | true =>
      split
      · exact Permits.pure he'
      · exact ih hvalue he'
    | false =>
      split
      · exact ih (by simp) he'
      · exact ih (by simp) he'

end JoinOperator

namespace LeftJoinOperator

/-- Pruning leaves a part of the graph. -/
theorem pruneEmpty_subset (odg : DirectedLabelledGraph) (operands : List (ConstHypertrie K V)) :
    Permits (pruneEmpty odg operands)
      (fun pruned => pruned.1.operandsVarIdsSet ⊆ odg.operandsVarIdsSet) := by
  rw [pruneEmpty]
  refine Permits.bind_any fun kept _ => Permits.bind_any fun prunedOperands _ => ?_
  exact Permits.pure (operandsVarIdsSet_subgraph kept)

theorem yielded_frames (hs : sub.Frames boolValued projVars) (evaluated : Bool)
    (hsub : g.operandsVarIdsSet ⊆ varIds) (h : Framed boolValued projVars varIds key e) :
    Permits (yielded projVars sub evaluated g operands e) (AllFramed boolValued projVars varIds key) := by
  rw [yielded]
  split
  · refine Permits.bind (hs.singleResult hsub h) fun e' he' => ?_
    split
    · exact Permits.pure (.singleton he')
    · split
      · exact Permits.pure (.singleton (he'.setValue fun _ => le_rfl))
      · exact Permits.pure (.nil he')
  · refine Permits.bind (hs.generator hsub h) ?_
    rintro ⟨out, e'⟩ hout
    show Permits (if out.isEmpty && evaluated then _ else _) _
    split
    · exact Permits.pure (.singleton (hout.2.setValue fun _ => le_rfl))
    · exact Permits.pure hout

theorem generatorLoop_frames [Inhabited K] {label : Label} (hs : sub.Frames boolValued projVars)
    (hsub : g.operandsVarIdsSet ⊆ varIds) (hlabel : label ∈ varIds)
    (hlen : projVars.length ≤ posTypeCount) (items : List (K × List (ConstHypertrie K V)))
    (h : Framed boolValued projVars varIds key e) :
    Permits (generatorLoop projVars sub g label items e) (AllFramed boolValued projVars varIds key) := by
  induction items generalizing e with
  | nil => exact Permits.pure (.nil h)
  | cons item items ih =>
    rw [generatorLoop]
    refine Permits.bind (pruneEmpty_subset g item.2) ?_
    rintro ⟨prunedOdg, prunedOperands⟩ hpruned
    have hleft := List.Subset.trans (operandsVarIdsSet_removeVarId label) (List.Subset.trans hpruned hsub)
    refine Permits.bind (yielded_frames hs _ hleft (h.writeProjected hlabel hlen item.1)) ?_
    rintro ⟨out, e'⟩ hout
    refine Permits.bind (ih ((hout.2.clear hsub).setValue fun _ => le_rfl)) ?_
    rintro ⟨rest, e''⟩ hrest
    exact Permits.pure (hout.append hrest)

theorem singleLoop_frames {arith : Arithmetic} (hs : sub.Frames boolValued projVars)
    (hsub : g.operandsVarIdsSet ⊆ varIds) (evalVar : Label)
    (items : List (K × List (ConstHypertrie K V))) {value : Nat} (hvalue : boolValued = true → value ≤ 1)
    (h : Framed boolValued projVars varIds key e) :
    Permits (singleLoop arith boolValued sub g evalVar items value e)
      (Framed boolValued projVars varIds key) := by
  induction items generalizing value e with
  | nil =>
    refine Permits.pure (h.setValue fun hb => ?_)
    split
    · exact le_rfl
    · exact hvalue hb
  | cons item items ih =>
    rw [singleLoop]
    refine Permits.bind (pruneEmpty_subset g item.2) ?_
    rintro ⟨prunedOdg, prunedOperands⟩ hpruned
    have hleft := List.Subset.trans (operandsVarIdsSet_removeVarId evalVar) (List.Subset.trans hpruned hsub)
    refine Permits.bind (hs.singleResult hleft h) fun e' he' => ?_
    cases boolValued with
    | true => exact Permits.pure he'
    | false => exact ih (by simp) he'

end LeftJoinOperator

namespace ResolveOperator

theorem writeParts_frames {vars : List Label} (hvars : vars ⊆ varIds) (parts key : List K) :
    Permits (writeParts projVars vars parts key) (AgreesOutside (places projVars varIds) key) := by
  induction vars generalizing parts key with
  | nil =>
    cases parts with
    | nil => exact Permits.pure (.refl _ _)
    | cons part parts => exact Permits.none _
  | cons varId vars ih =>
    obtain ⟨hvarId, hvars⟩ := List.cons_subset.mp hvars
    cases parts with
    | nil => exact Permits.pure (.refl _ _)
    | cons part parts =>
      rw [writeParts]
      refine Permits.bind_any fun pos hpos => ?_
      have hplace : pos ∈ places projVars varIds := mem_places.mpr ⟨varId, hvarId, hpos⟩
      exact (ih hvars parts _).mono fun key' hkey' => (AgreesOutside.set hplace key part).trans hkey'

theorem generatorLoop_frames {vars : List Label} (hvars : vars ⊆ varIds)
    (entries : List (SingleEntry K V)) (h : Framed boolValued projVars varIds key e) :
    Permits (generatorLoop projVars vars entries e) (AllFramed boolValued projVars varIds key) := by
  induction entries generalizing e with
  | nil => exact Permits.pure (.nil h)
  | cons entry entries ih =>
    rw [generatorLoop]
    refine Permits.bind (writeParts_frames hvars entry.key e.key) fun key' hkey' => ?_
    have hnext : Framed boolValued projVars varIds key ⟨key', 1⟩ :=
      (h.setKey hkey').setValue fun _ => le_rfl
    refine Permits.bind (ih hnext) ?_
    rintro ⟨rest, e'⟩ hrest
    exact Permits.pure ((AllFramed.singleton hnext).append hrest)

end ResolveOperator

namespace UnionOperator

/-- The components are parts of the graph. -/
theorem initUnion_subset (odg : DirectedLabelledGraph) (operands : List (ConstHypertrie K V)) :
    Permits (initUnion odg operands)
      (fun comps => ∀ comp ∈ comps, comp.1.operandsVarIdsSet ⊆ odg.operandsVarIdsSet) := by
  refine (Permits.mapM (R := fun _ comp => comp.1.operandsVarIdsSet ⊆ odg.operandsVarIdsSet)
    fun vs _ => Permits.map fun ops _ => ?_).mono fun comps h => forall_mem_of_forall₂ h fun _ _ hc => hc
  exact operandsVarIdsSet_subgraph vs

theorem generatorLoop_frames [Inhabited K] (hs : sub.Frames boolValued projVars)
    {comps : List (DirectedLabelledGraph × List (ConstHypertrie K V))}
    (hcomps : ∀ comp ∈ comps, comp.1.operandsVarIdsSet ⊆ varIds)
    (h : Framed boolValued projVars varIds key e) :
    Permits (generatorLoop projVars sub comps e) (AllFramed boolValued projVars varIds key) := by
  induction comps generalizing e with
  | nil => exact Permits.pure (.nil h)
  | cons comp comps ih =>
    obtain ⟨hcomp, hcomps⟩ := List.forall_mem_cons.mp hcomps
    rw [generatorLoop]
    refine Permits.bind (hs.entries hcomp h) ?_
    rintro ⟨out, e'⟩ hout
    refine Permits.bind (ih hcomps (hout.2.clear hcomp)) ?_
    rintro ⟨rest, e''⟩ hrest
    exact Permits.pure (hout.append hrest)

theorem singleLoop_frames {arith : Arithmetic} (hs : sub.Frames boolValued projVars)
    {comps : List (DirectedLabelledGraph × List (ConstHypertrie K V))}
    (hcomps : ∀ comp ∈ comps, comp.1.operandsVarIdsSet ⊆ varIds) {value : Nat}
    (hvalue : boolValued = true → value ≤ 1) (h : Framed boolValued projVars varIds key e) :
    Permits (singleLoop arith boolValued sub comps value e) (Framed boolValued projVars varIds key) := by
  induction comps generalizing value e with
  | nil => exact Permits.pure (h.setValue hvalue)
  | cons comp comps ih =>
    obtain ⟨hcomp, hcomps⟩ := List.forall_mem_cons.mp hcomps
    rw [singleLoop]
    refine Permits.bind (hs.singleResult hcomp h) fun e' he' => ?_
    cases boolValued with
    | true =>
      split
      · exact Permits.pure he'
      · exact ih hcomps hvalue he'
    | false =>
      split
      · exact ih hcomps (by simp) he'
      · exact ih hcomps (by simp) he'

end UnionOperator

namespace CartesianOperator

variable [Inhabited K]
variable {arith : Arithmetic} {isOptional : Bool} {comp : Component}
variable {subOperands : List (ConstHypertrie K V)} {calculated : FullCartesianResult K}

/-- What the operator of a component yields for an entry of its own. -/
theorem component_generator (hs : sub.Frames boolValued projVars) :
    Permits ((componentOperator sub g).generator comp subOperands (subEntryArg projVars))
      (fun out => ∀ e ∈ out, Framed boolValued projVars (componentGraph g comp).operandsVarIdsSet
        (List.replicate projVars.length default) e) :=
  Permits.map ((hs.generator (List.Subset.refl _) ⟨.refl _ _, fun _ => le_rfl⟩).mono fun _ h => h.1)

theorem component_singleResult (hs : sub.Frames boolValued projVars) :
    Permits ((componentOperator sub g).singleResult comp subOperands (subEntryArg projVars))
      (Framed boolValued projVars (componentGraph g comp).operandsVarIdsSet
        (List.replicate projVars.length default)) :=
  hs.singleResult (List.Subset.refl _) ⟨.refl _ _, fun _ => le_rfl⟩

/-- The products can be enumerated, and are written to these positions. -/
structure Enumerable (poss : List Nat) (calculated : FullCartesianResult K) : Prop where
  ne_nil : ∀ subResult ∈ calculated.subResults, subResult ≠ []
  length : calculated.resultMapping.length = calculated.subResults.length
  subset : calculated.resultMapping.flatten ⊆ poss

variable [DecidableEq K]

theorem forEach_frames {body : Nat → Entry K → Entry K}
    (hc : Enumerable (places projVars varIds) calculated)
    (hbody : ∀ value e, (boolValued = true → value = 1) → Framed boolValued projVars varIds key e →
      Framed boolValued projVars varIds key (body value e))
    (h : Framed boolValued projVars varIds key e) :
    Permits (calculated.forEach arith.mul boolValued copyKey body e)
      (AllFramed boolValued projVars varIds key) := by
  have hwrite (e : Entry K) (tuple : List (List K)) (h : Framed boolValued projVars varIds key e) :
      Framed boolValued projVars varIds key
        (e.setKey (writeTuple copyKey calculated.resultMapping tuple e.key)) :=
    h.setKey ((AgreesOutside.writeTuple _ tuple e.key).mono hc.subset)
  have hvalue (tuple) (hm : tuple ∈ reportedTuples arith.mul boolValued calculated.subResults)
      (hb : boolValued = true) : tuple.value = 1 := by
    subst hb
    exact value_reportedTuples_bool arith.mul calculated.subResults tuple hm
  have hbody (tuple) (hm : tuple ∈ reportedTuples arith.mul boolValued calculated.subResults)
      (e : Entry K) (h : Framed boolValued projVars varIds key e) :
      Framed boolValued projVars varIds key (body tuple.value e) :=
    hbody tuple.value e (hvalue tuple hm) h
  refine (forEach_reported hwrite hbody hc.ne_nil hc.length h).permits.mono ?_
  rintro ⟨out, e'⟩ ⟨he', hout⟩
  refine ⟨?_, he'⟩
  have hall : ∀ tuple ∈ reportedTuples arith.mul boolValued calculated.subResults,
      tuple ∈ reportedTuples arith.mul boolValued calculated.subResults := fun _ h => h
  refine forall_mem_of_forall₂ ((List.forall₂_and_left _ _).mpr ⟨hall, hout⟩) ?_
  rintro tuple entry ⟨hm, e₁, he₁, rfl⟩
  exact hbody tuple hm _ (hwrite e₁ tuple.key he₁)

omit [DecidableEq K] in
/-- A product of two values of type `bool` is one. -/
theorem productBody_frames {poss : List Nat} {iterated : Entry K} {value : Nat}
    (hmul : ∀ n ≤ 1, arith.mul n 1 ≤ 1) (hposs : poss ⊆ places projVars varIds)
    (hiterated : boolValued = true → iterated.value ≤ 1) (hvalue : boolValued = true → value = 1)
    (h : Framed boolValued projVars varIds key e) :
    Framed boolValued projVars varIds key (productBody arith poss iterated value e) := by
  refine (h.setKey ((AgreesOutside.copyKey poss e.key iterated.key).mono hposs)).setValue fun hb => ?_
  rw [hvalue hb]
  exact hmul _ (hiterated hb)

theorem iterate_frames {poss : List Nat} (hmul : ∀ n ≤ 1, arith.mul n 1 ≤ 1)
    (hposs : poss ⊆ places projVars varIds) (hc : Enumerable (places projVars varIds) calculated)
    {iteratedOut : List (Entry K)} (hiterated : boolValued = true → ∀ e ∈ iteratedOut, e.value ≤ 1)
    (h : Framed boolValued projVars varIds key e) :
    Permits (iterate arith boolValued poss calculated iteratedOut e)
      (AllFramed boolValued projVars varIds key) := by
  induction iteratedOut generalizing e with
  | nil => exact Permits.pure (.nil h)
  | cons iterated iteratedOut ih =>
    rw [iterate]
    refine Permits.bind (forEach_frames hc (fun value e hvalue => productBody_frames hmul hposs
      (fun hb => hiterated hb iterated List.mem_cons_self) hvalue) h) ?_
    rintro ⟨out, e'⟩ hout
    refine Permits.bind (ih (fun hb e he => hiterated hb e (List.mem_cons_of_mem _ he)) hout.2) ?_
    rintro ⟨rest, e''⟩ hrest
    exact Permits.pure (hout.append hrest)

theorem streamed_frames (hs : sub.Frames boolValued projVars) (hmul : ∀ n ≤ 1, arith.mul n 1 ≤ 1)
    (hposs : comp.resultPoss projVars ⊆ places projVars varIds)
    (hc : Enumerable (places projVars varIds) calculated)
    (h : Framed boolValued projVars varIds key e) :
    Permits (streamed arith boolValued isOptional projVars (componentOperator sub g) comp subOperands
      calculated e) (AllFramed boolValued projVars varIds key) := by
  rw [streamed]
  refine Permits.bind (component_generator hs) fun iteratedOut hiterated => ?_
  refine Permits.bind (iterate_frames hmul hposs hc (fun hb e he => (hiterated e he).value_le hb) h) ?_
  rintro ⟨out, e'⟩ hout
  show Permits (if isOptional && iteratedOut.isEmpty then _ else _) _
  split
  · exact forEach_frames hc (fun _ _ _ he => he) hout.2
  · exact Permits.pure hout

theorem single_frames (hs : sub.Frames boolValued projVars) (hmul : ∀ n ≤ 1, arith.mul n 1 ≤ 1)
    (hposs : comp.resultPoss projVars ⊆ places projVars varIds)
    (hc : Enumerable (places projVars varIds) calculated)
    (h : Framed boolValued projVars varIds key e) :
    Permits (single arith boolValued isOptional projVars (componentOperator sub g) comp subOperands
      calculated e) (AllFramed boolValued projVars varIds key) := by
  rw [single]
  refine Permits.bind (component_singleResult hs) fun iterated hiterated => ?_
  split
  · exact forEach_frames hc (fun value e hvalue =>
      productBody_frames hmul hposs hiterated.value_le hvalue) h
  · split
    · exact forEach_frames hc (fun value e hvalue he => he.setValue fun hb => (hvalue hb).le) h
    · exact Permits.pure (.nil h)

theorem singleProduct_frames (hs : sub.Frames boolValued projVars)
    (hc : Enumerable (places projVars varIds) calculated)
    (h : Framed boolValued projVars varIds key e) :
    Permits (singleProduct arith boolValued isOptional projVars (componentOperator sub g) comp subOperands
      calculated e) (Framed boolValued projVars varIds key) := by
  rw [singleProduct]
  refine Permits.bind (component_singleResult hs) fun iterated hiterated => ?_
  cases boolValued with
  | true =>
    refine Permits.pure (h.setValue fun hb => ?_)
    split
    · exact le_rfl
    · exact hiterated.value_le hb
  | false =>
    obtain ⟨current, rest, hsections⟩ := List.exists_cons_of_ne_nil (Odometer.sections_ne_nil hc.ne_nil)
    rw [if_neg Bool.false_ne_true, restart, restartFrom_spec hc.ne_nil hc.length hsections]
    refine Permits.pure ((h.setKey ?_).setValue (by simp))
    exact (AgreesOutside.writeTuple _ _ e.key).mono hc.subset

section Graph

variable [UnorderedMap M] [Zero D] [LT D] [DecidableLT D]

theorem getSubResults_length {O : Type} (sub : SubOperator K O) (parts : List (Component × List O)) :
    Permits (getSubResults M arith boolValued isOptional projVars sub parts)
      (fun results => ∀ outs, results = some outs → outs.length = parts.length) := by
  induction parts with
  | nil =>
    refine Permits.pure fun outs houts => ?_
    cases houts
    rfl
  | cons part parts ih =>
    rw [getSubResults]
    refine Permits.bind_any fun result _ => ?_
    split
    · refine Permits.pure fun outs houts => ?_
      cases houts
    · refine Permits.bind ih fun results hresults => Permits.pure fun outs houts => ?_
      obtain ⟨outs, hsome, rfl⟩ := Option.map_eq_some_iff.mp houts
      rw [List.length_cons, List.length_cons, hresults outs hsome]

theorem resultPoss_subset (vs : List Nat) :
    (component g vs).resultPoss projVars ⊆ places projVars g.operandsVarIdsSet :=
  places_subset (operandsVarIdsSet_subgraph vs)

/-- The component that is iterated and the products of the others belong to the graph. -/
theorem prepare_frames (c : Choices K V D) (sub : GraphOperator K V) (g : DirectedLabelledGraph)
    (operands : List (ConstHypertrie K V)) (e : Entry K) :
    Permits (prepare (M := M) c arith boolValued projVars sub isOptional g operands e) (fun prepared =>
      prepared.1.resultPoss projVars ⊆ places projVars g.operandsVarIdsSet ∧
      ∀ calculated, prepared.2.2 = some calculated →
        Enumerable (places projVars g.operandsVarIdsSet) calculated) := by
  let comps := g.cartesianComponents.map (component g)
  have hcomps (comp) (hm : comp ∈ comps) :
      comp.resultPoss projVars ⊆ places projVars g.operandsVarIdsSet := by
    obtain ⟨vs, -, rfl⟩ := List.mem_map.mp hm
    exact resultPoss_subset vs
  rw [prepare]
  have hinit : Permits (initCartesian projVars
      (fun comp operands => c.estimate projVars (componentGraph g comp) operands) comps operands)
      (fun init => init.1.length = comps.length ∧
        init.2.1 = comps.map (Component.resultPoss projVars)) := by
    rw [initCartesian]
    refine Permits.bind (Permits.mapM (R := fun _ _ => True) fun _ _ _ _ => trivial) fun subOperandss h => ?_
    exact Permits.pure ⟨h.length_eq.symm, rfl⟩
  refine Permits.bind hinit ?_
  rintro ⟨subOperandss, poss, pos⟩ ⟨hlength, hposs⟩
  have hposs : poss = comps.map (Component.resultPoss projVars) := hposs
  refine Permits.bind_any fun part hpart => ?_
  have hzip : (comps.zip subOperandss).length = comps.length := by
    rw [List.length_zip, hlength, Nat.min_self]
  have hpos : pos < comps.length := by
    rw [← hzip]
    exact (List.getElem?_eq_some_iff.mp hpart).1
  refine Permits.bind (getSubResults_length _ _) fun results hresults => Permits.pure ⟨?_, ?_⟩
  · exact hcomps _ (List.of_mem_zip (List.mem_of_getElem? hpart)).1
  · intro calculated hcalculated
    obtain ⟨outs, houts, rfl⟩ := Option.map_eq_some_iff.mp hcalculated
    refine ⟨?_, ?_, ?_⟩
    · exact List.forall_mem_map.mpr fun out _ => subResultVec_ne_nil (by simp)
    · show (poss.eraseIdx pos).length = (outs.map _).length
      rw [List.length_map, hresults outs houts, hposs, List.length_eraseIdx, List.length_eraseIdx,
        List.length_map, hzip]
    · intro place hplace
      obtain ⟨poss', hm, hplace⟩ := List.mem_flatten.mp hplace
      have hm : poss' ∈ poss := List.mem_of_mem_eraseIdx hm
      rw [hposs] at hm
      obtain ⟨comp, hcomp, rfl⟩ := List.mem_map.mp hm
      exact hcomps comp hcomp hplace

theorem graphGenerator_frames (c : Choices K V D) (hs : sub.Frames boolValued projVars)
    (hmul : ∀ n ≤ 1, arith.mul n 1 ≤ 1) (hsub : g.operandsVarIdsSet ⊆ varIds)
    (h : Framed boolValued projVars varIds key e) :
    Permits (graphGenerator (M := M) c arith boolValued projVars sub isOptional g operands e)
      (AllFramed boolValued projVars varIds key) := by
  have hplaces : places projVars g.operandsVarIdsSet ⊆ places projVars varIds := places_subset hsub
  rw [graphGenerator]
  refine Permits.bind (prepare_frames c sub g operands _) ?_
  rintro ⟨comp, subOperands, calculated⟩ ⟨hposs, hcalculated⟩
  cases calculated with
  | none => exact Permits.pure (.nil (h.clear hsub))
  | some calculated =>
    have hc := hcalculated calculated rfl
    have hc : Enumerable (places projVars varIds) calculated :=
      ⟨hc.ne_nil, hc.length, List.Subset.trans hc.subset hplaces⟩
    have hposs := List.Subset.trans hposs hplaces
    show Permits (if comp.allResultDone projVars then _ else _) _
    split
    · exact single_frames hs hmul hposs hc (h.clear hsub)
    · exact streamed_frames hs hmul hposs hc (h.clear hsub)

theorem graphSingleResult_frames (c : Choices K V D) (hs : sub.Frames boolValued projVars)
    (hsub : g.operandsVarIdsSet ⊆ varIds) (h : Framed boolValued projVars varIds key e) :
    Permits (graphSingleResult (M := M) c arith boolValued projVars sub isOptional g operands e)
      (Framed boolValued projVars varIds key) := by
  have hplaces : places projVars g.operandsVarIdsSet ⊆ places projVars varIds := places_subset hsub
  rw [graphSingleResult]
  refine Permits.bind (prepare_frames c sub g operands _) ?_
  rintro ⟨comp, subOperands, calculated⟩ ⟨hposs, hcalculated⟩
  cases calculated with
  | none => exact Permits.pure ((h.clear hsub).setValue fun _ => Nat.zero_le _)
  | some calculated =>
    have hc := hcalculated calculated rfl
    exact singleProduct_frames hs ⟨hc.ne_nil, hc.length, List.Subset.trans hc.subset hplaces⟩
      (h.clear hsub)

end Graph

end CartesianOperator

variable [UnorderedMap M] [Zero D] [LT D] [DecidableLT D]
variable {t : HypertrieTrait K V} {ns : NodeStorage M K V} {c : Choices K V D} {arith : Arithmetic}

theorem countSingleResult_frames (h : Framed boolValued projVars varIds key e) :
    Permits (CountOperator.singleResult t ns boolValued operands e)
      (Framed boolValued projVars varIds key) := by
  rw [CountOperator.singleResult, Hypertrie.CountOperator.singleResult]
  cases boolValued with
  | true => exact Permits.pure (h.setValue fun _ => le_rfl)
  | false =>
    refine Permits.bind_any fun operand _ => Permits.bind_any fun size _ => ?_
    exact Permits.pure (h.setValue (by simp))

variable [DecidableEq V]

/-- Whatever the operator for a graph is, it writes only at the places of the graph's variables. -/
theorem getSubOperator_frames [DecidableEq K] [Inhabited K]
    (hmul : ∀ n ≤ 1, arith.mul n 1 ≤ 1) (hlen : projVars.length ≤ posTypeCount)
    (fuel : Nat) :
    (getSubOperator (M := M) t ns c arith boolValued projVars fuel).Frames boolValued projVars := by
  induction fuel with
  | zero => exact ⟨fun _ _ => Permits.none _, fun _ _ => Permits.none _⟩
  | succ fuel ih =>
    constructor
    · intro varIds key g operands e hsub h
      rw [getSubOperator]
      dsimp only
      cases nextOp projVars g with
      | join =>
        refine Permits.bind (getMinCardLabel_mem c false projVars g operands) fun label hlabel => ?_
        refine Permits.bind_any fun items _ => ?_
        exact JoinOperator.generatorLoop_frames ih
          (List.Subset.trans (operandsVarIdsSet_removeVarId label) hsub) (hsub hlabel) hlen items
          (h.clear hsub)
      | leftJoin =>
        refine Permits.bind (getMinCardLabel_mem c true projVars g operands) fun label hlabel => ?_
        refine Permits.bind_any fun items _ => ?_
        exact LeftJoinOperator.generatorLoop_frames ih hsub (hsub hlabel) hlen items (h.clear hsub)
      | resolve =>
        refine Permits.bind_any fun operand _ => Permits.bind_any fun entries _ => ?_
        exact ResolveOperator.generatorLoop_frames (List.Subset.trans (operandVarIds_subset 0) hsub)
          entries (h.clear hsub)
      | count => exact Permits.pure (.singleton h)
      | cartesian => exact CartesianOperator.graphGenerator_frames c ih hmul hsub h
      | union =>
        refine Permits.bind (UnionOperator.initUnion_subset g operands) fun comps hcomps => ?_
        exact UnionOperator.generatorLoop_frames ih
          (fun comp hm => List.Subset.trans (hcomps comp hm) hsub) (h.clear hsub)
      | entryGenerator => exact Permits.pure (.singleton h)
    · intro varIds key g operands e hsub h
      rw [getSubOperator]
      dsimp only
      cases nextOp projVars g with
      | join =>
        refine Permits.bind_any fun label _ => Permits.bind_any fun items _ => ?_
        exact JoinOperator.singleLoop_frames ih
          (List.Subset.trans (operandsVarIdsSet_removeVarId label) hsub) items (by simp) (h.clear hsub)
      | leftJoin =>
        refine Permits.bind_any fun front _ => Permits.bind_any fun label _ =>
          Permits.bind_any fun items _ => ?_
        exact LeftJoinOperator.singleLoop_frames ih hsub label items (by simp) (h.clear hsub)
      | resolve => exact Permits.pure h
      | count => exact countSingleResult_frames h
      | cartesian => exact CartesianOperator.graphSingleResult_frames c ih hsub h
      | union =>
        refine Permits.bind (UnionOperator.initUnion_subset g operands) fun comps hcomps => ?_
        exact UnionOperator.singleLoop_frames ih
          (fun comp hm => List.Subset.trans (hcomps comp hm) hsub) (by simp) (h.clear hsub)
      | entryGenerator => exact Permits.pure (h.setValue fun _ => le_rfl)

end Operators

end Query

end Hypertrie
