import Hypertrie.OptionalProduct
import Hypertrie.QueryBlocks

/-! The Cartesian product of optional components. A component without solutions leaves its
variables unbound; the products of the others are then yielded all the same. -/

namespace Hypertrie

open Weighted FullCartesianResult UnorderedMap FactorExchange

namespace Query

variable {M : Type → Type → Type} [UnorderedMap M] {K V D : Type}
variable [DecidableEq K] [Inhabited K]

namespace CartesianOperator

variable {boolValued : Bool} {projVars : List Label} {comp : Component}

section Results

variable {O : Type} {subOperands : List O} {sub : SubOperator K O} {out : List (Entry K)}

/-- What the operator of a component finds, as entries. -/
def subEntries (projVars : List Label) (sub : SubOperator K O) (comp : Component)
    (subOperands : List O) : Option (List (Entry K)) :=
  if comp.allResultDone projVars then
    (sub.singleResult comp subOperands (subEntryArg projVars)).map fun e =>
      if e.value ≠ 0 then [e] else []
  else sub.generator comp subOperands (subEntryArg projVars)

/-- The results of a component in the order of the hash map, with the values that they sum up to. -/
def materialised (M : Type → Type → Type) [UnorderedMap M] (boolValued : Bool) (out : List (Entry K)) :
    List (Entry K) :=
  (entries (collect M .sizeT boolValued out)).map fun e => ⟨e.1, amount boolValued (weight out e.1)⟩

omit [Inhabited K] in
/-- The hash map has the sums modulo `2 ^ 64`. -/
theorem find_collect (boolValued : Bool) (out : List (Entry K)) (key : List K) :
    find (collect M .sizeT boolValued out) key = if key ∈ out.map (·.key) then
      some (if boolValued then 1 else weight out key % 2 ^ 64) else none := by
  induction out using List.reverseRecOn with
  | nil => exact find_empty key
  | append_singleton out e ih =>
    have hcollect : collect M .sizeT boolValued (out ++ [e]) =
        assign (collect M .sizeT boolValued out) e.key (if boolValued then 1
          else Arithmetic.sizeT.add ((find (collect M .sizeT boolValued out) e.key).getD 0) e.value) :=
      List.foldl_concat ..
    rw [hcollect, find_assign, List.map_append, List.map_singleton]
    by_cases hkey : key = e.key
    · subst hkey
      have hmem : e.key ∈ out.map (·.key) ++ [e.key] :=
        List.mem_append_right _ (List.mem_singleton_self _)
      rw [if_pos rfl, if_pos hmem, weight_append, weight_cons, if_pos rfl, weight_nil, Nat.add_zero]
      cases boolValued with
      | true => rfl
      | false =>
        have hsum : (find (collect M .sizeT false out) e.key).getD 0 = weight out e.key % 2 ^ 64 := by
          rw [ih]
          by_cases hm : e.key ∈ out.map (·.key)
          · rw [if_pos hm]
            rfl
          · rw [if_neg hm, weight_of_not_mem hm]
            rfl
        rw [hsum]
        exact congrArg some (Nat.mod_add_mod ..)
    · have hmem : key ∈ out.map (·.key) ++ [e.key] ↔ key ∈ out.map (·.key) := by simp [hkey]
      rw [if_neg hkey, ih, if_congr hmem rfl rfl, weight_append, weight_cons, if_neg (Ne.symm hkey),
        weight_nil, Nat.add_zero]

omit [Inhabited K] in
theorem mem_materialised {e : Entry K} : e ∈ materialised M boolValued out ↔
    e.key ∈ out.map (·.key) ∧ e.value = amount boolValued (weight out e.key) := by
  constructor
  · intro h
    obtain ⟨⟨key, value⟩, hm, rfl⟩ := List.mem_map.mp h
    rw [mem_entries, find_collect] at hm
    by_cases hkey : key ∈ out.map (·.key)
    · exact ⟨hkey, rfl⟩
    · rw [if_neg hkey] at hm
      cases hm
  · rintro ⟨hkey, hvalue⟩
    refine List.mem_map.mpr ⟨(e.key, if boolValued then 1 else weight out e.key % 2 ^ 64), ?_, ?_⟩
    · rw [mem_entries, find_collect, if_pos hkey]
    · rw [← hvalue]

omit [Inhabited K] in
theorem nodup_materialised (boolValued : Bool) (out : List (Entry K)) :
    ((materialised M boolValued out).map (·.key)).Nodup := by
  rw [materialised, List.map_map]
  exact nodup_keys _

/-- What is materialised is as much as what is found. -/
theorem Represents.materialised {size : Nat} {poss : List Nat}
    (h : Represents boolValued size poss (weight out) out) :
    Represents boolValued size poss (weight out) (materialised M boolValued out) := by
  have hpos (key) (hm : key ∈ out.map (·.key)) : weight out key ≠ 0 :=
    (weight_ne_zero h.value_ne_zero).mpr hm
  have hamount (n : Nat) : amount boolValued (amount boolValued n) = amount boolValued n := by
    cases boolValued with
    | false => rfl
    | true => simp [amount]
  refine ⟨fun e he => ?_, fun e he => ?_, fun hb e he => ?_, fun key => ?_⟩
  · obtain ⟨e', he', hkey⟩ := List.mem_map.mp (mem_materialised.mp he).1
    rw [← hkey]
    exact h.bound e' he'
  · obtain ⟨hm, hvalue⟩ := mem_materialised.mp he
    rw [hvalue, Ne, amount_eq_zero]
    exact hpos e.key hm
  · obtain ⟨hm, hvalue⟩ := mem_materialised.mp he
    subst hb
    rw [hvalue, amount_of_ne_zero (hpos e.key hm)]
  · by_cases hm : key ∈ out.map (·.key)
    · have he : (⟨key, amount boolValued (weight out key)⟩ : Entry K) ∈
          CartesianOperator.materialised M boolValued out := mem_materialised.mpr ⟨hm, rfl⟩
      rw [weight_of_nodup (nodup_materialised boolValued out) he, hamount]
    · rw [weight_of_not_mem hm, weight_of_not_mem fun h => ?_]
      obtain ⟨e, he, rfl⟩ := List.mem_map.mp h
      exact hm (mem_materialised.mp he).1

/-- The entries of the hash map are the materialised ones as long as the sums fit. -/
theorem subResult_wrapped (h : subEntries projVars sub comp subOperands = some out)
    (hbool : boolValued = true → ∀ e ∈ out, e.value = 1) :
    Ensures (subResult M .sizeT boolValued projVars sub comp subOperands) (fun result =>
      Wrapped ((entries result).map fun e => ⟨e.1, e.2⟩) (materialised M boolValued out)) := by
  rw [subEntries] at h
  rw [subResult]
  by_cases hdone : comp.allResultDone projVars
  · rw [if_pos hdone] at h ⊢
    obtain ⟨e, hsingle, rfl⟩ := Option.map_eq_some_iff.mp h
    rw [hsingle, Option.bind_eq_bind, Option.bind_some]
    refine Ensures.pure ?_
    by_cases he : e.value ≠ 0
    · rw [if_pos he] at hbool
      rw [if_pos he, if_pos he, entries_assign_empty, materialised, collect, List.foldl_cons,
        List.foldl_nil, entries_assign_empty]
      refine .cons ⟨rfl, fun _ => ?_⟩ .nil
      have hweight : weight [e] e.key = e.value := by
        rw [weight_cons, if_pos rfl, weight_nil, Nat.add_zero]
      show e.value = amount boolValued (weight [e] e.key)
      rw [hweight]
      cases boolValued with
      | false => rfl
      | true => rw [amount_of_ne_zero he, hbool rfl e List.mem_cons_self]
    · rw [if_neg he, if_neg he, materialised, collect, List.foldl_nil, entries_empty]
      exact .nil
  · rw [if_neg hdone] at h ⊢
    rw [h]
    refine Ensures.pure ?_
    rw [materialised]
    refine List.forall₂_map_left_iff.mpr (List.forall₂_map_right_iff.mpr (List.forall₂_same.mpr ?_))
    rintro ⟨key, value⟩ hm
    refine ⟨rfl, fun hlt => ?_⟩
    rw [mem_entries, find_collect] at hm
    by_cases hkey : key ∈ out.map (·.key)
    · rw [if_pos hkey, Option.some.injEq] at hm
      rw [← hm]
      cases boolValued with
      | false => exact Nat.mod_eq_of_lt hlt
      | true =>
        have hnonzero : ∀ e ∈ out, e.value ≠ 0 := fun e he => by
          rw [hbool rfl e he]
          exact one_ne_zero
        exact (amount_of_ne_zero ((weight_ne_zero hnonzero).mpr hkey)).symm
    · rw [if_neg hkey] at hm
      cases hm

omit [DecidableEq K] in
theorem Wrapped.subResultVec {vec vec' : List (Entry K)} (h : Wrapped vec vec') (size : Nat) :
    Wrapped (Version.query.subResultVec size vec) (Version.query.subResultVec size vec') := by
  cases h with
  | nil => exact .cons ⟨rfl, fun _ => rfl⟩ .nil
  | cons he h => exact .cons he h

variable {found : Component → List (Entry K)} {others : List (Component × List O)}

/-- The results of these components, each with the single unbound entry if it is missing. -/
def materialisedAll (M : Type → Type → Type) [UnorderedMap M] (boolValued : Bool)
    (projVars : List Label) (found : Component → List (Entry K)) (comps : List Component) :
    List (List (Entry K)) :=
  comps.map fun comp =>
    Version.query.subResultVec projVars.length (materialised M boolValued (found comp))

theorem getSubResults_wrapped (boolValued : Bool)
    (h : ∀ part ∈ others, subEntries projVars sub part.1 part.2 = some (found part.1) ∧
      (boolValued = true → ∀ e ∈ found part.1, e.value = 1)) :
    Ensures (getSubResults M .sizeT boolValued true projVars sub others) (fun results =>
      ∃ outs, results = some outs ∧
        List.Forall₂ Wrapped (outs.map (Version.query.subResultVec projVars.length))
          (materialisedAll M boolValued projVars found (others.map Prod.fst))) := by
  induction others with
  | nil => exact Ensures.pure ⟨[], rfl, .nil⟩
  | cons part others ih =>
    obtain ⟨⟨hfound, hbool⟩, h⟩ := List.forall_mem_cons.mp h
    obtain ⟨results, hresults, outs, rfl, hwrapped⟩ := ih h
    obtain ⟨result, hresult, hfirst⟩ := subResult_wrapped (M := M) hfound hbool
    rw [getSubResults, hresult]
    simp only [Option.bind_eq_bind, Option.bind_some, hresults, Bool.not_true, Bool.false_and,
      Bool.false_eq_true, if_false]
    exact Ensures.pure ⟨_, rfl, .cons (Wrapped.subResultVec hfirst _) hwrapped⟩

omit [DecidableEq K] in
/-- A component whose variables are all done has one entry, or the unbound one in place of it. -/
theorem exists_single (hdone : comp.allResultDone projVars = true)
    (h : subEntries projVars sub comp subOperands = some out) :
    ∃ single, sub.singleResult comp subOperands (subEntryArg projVars) = some single ∧
      (out.map (·.key)).Nodup ∧ ∃ last ∈ Version.query.subResultVec projVars.length out,
        last.value = if single.value = 0 then 1 else single.value := by
  rw [subEntries, if_pos hdone] at h
  obtain ⟨single, hcall, rfl⟩ := Option.map_eq_some_iff.mp h
  refine ⟨single, hcall, ?_⟩
  by_cases hzero : single.value = 0
  · rw [if_neg (not_not.mpr hzero), if_pos hzero]
    exact ⟨List.nodup_nil, _, List.mem_singleton_self _, rfl⟩
  · rw [if_pos hzero, if_neg hzero]
    exact ⟨List.nodup_singleton _, single, List.mem_singleton_self _, rfl⟩

end Results

section Loops

variable {size : Nat} {parts : List (List Nat × (List K → Nat))} {poss : List Nat}
variable {bag : List K → Nat} {vecs : List (List (Entry K))} {key : List K} {e : Entry K}

/-- The loop yields what is reported for the entries of the iterated component. -/
theorem iterate_spec (boolValued : Bool) (poss : List Nat) (bag : List K → Nat) (iteratedOut : List (Entry K))
    (hne : ∀ vec ∈ vecs, vec ≠ []) (hl : parts.length = vecs.length)
    (hagree : AgreesOutside (writtenPoss (parts ++ [(poss, bag)])) key e.key) :
    Ensures (iterate .sizeT boolValued poss (.new vecs (parts.map Prod.fst)) iteratedOut e) (fun res =>
      AgreesOutside (writtenPoss (parts ++ [(poss, bag)])) key res.2.key ∧
      YieldsTuples (parts ++ [(poss, bag)]) key (reportedProducts boolValued vecs iteratedOut) res.1) := by
  have hmapping : (parts ++ [(poss, bag)]).map Prod.fst = parts.map Prod.fst ++ [poss] := by simp
  have hposs : poss ⊆ writtenPoss (parts ++ [(poss, bag)]) := fun pos hpos =>
    mem_writtenPoss.mpr ⟨(poss, bag), List.mem_append_right _ (List.mem_singleton_self _), hpos⟩
  have hparts : writtenPoss parts ⊆ writtenPoss (parts ++ [(poss, bag)]) := fun pos hpos => by
    obtain ⟨part, hm, hpos⟩ := mem_writtenPoss.mp hpos
    exact mem_writtenPoss.mpr ⟨part, List.mem_append_left _ hm, hpos⟩
  induction iteratedOut generalizing e with
  | nil => exact Ensures.pure ⟨hagree, .nil⟩
  | cons iterated iteratedOut ih =>
    have hwrite (e : Entry K) (tuple : List (List K))
        (h : AgreesOutside (writtenPoss (parts ++ [(poss, bag)])) key e.key) :
        AgreesOutside (writtenPoss (parts ++ [(poss, bag)])) key
          (e.setKey (writeTuple copyKey (parts.map Prod.fst) tuple e.key)).key :=
      h.trans ((AgreesOutside.writeTuple (parts.map Prod.fst) tuple e.key).mono hparts)
    have hbody (value : Nat) (e : Entry K)
        (h : AgreesOutside (writtenPoss (parts ++ [(poss, bag)])) key e.key) :
        AgreesOutside (writtenPoss (parts ++ [(poss, bag)])) key
          (productBody .sizeT poss iterated value e).key :=
      h.trans ((AgreesOutside.copyKey poss e.key iterated.key).mono hposs)
    have hl : (parts.map Prod.fst).length = vecs.length := by rw [List.length_map, hl]
    rw [iterate]
    refine Ensures.bind (forEach_reported (r := .new vecs (parts.map Prod.fst)) hwrite
      (fun tuple _ => hbody tuple.value) hne hl hagree) ?_
    rintro ⟨out, e'⟩ ⟨hagree', hout⟩
    refine Ensures.bind (ih hagree') ?_
    rintro ⟨rest, e''⟩ ⟨hagree'', hrest⟩
    refine Ensures.pure ⟨hagree'', ?_⟩
    rw [YieldsTuples, reportedProducts, List.flatMap_cons]
    refine List.rel_append (List.forall₂_map_left_iff.mpr ?_) hrest
    have hall : ∀ tuple ∈ reportedTuples (mulMod (2 ^ 64)) boolValued vecs,
        tuple.key.length = vecs.length := fun tuple hm => length_of_mem_reportedTuples hm
    refine ((List.forall₂_and_left _ _).mpr ⟨hall, hout⟩).imp ?_
    rintro tuple entry ⟨hlength, e₁, hagree₁, rfl⟩
    refine ⟨⟨e₁.key, hagree₁, ?_⟩, rfl⟩
    rw [hmapping, writeTuple_concat (hl.trans hlength.symm)]
    rfl

/-- The loop over the products when the iterated component has no solution. -/
theorem forEach_missing (boolValued sets : Bool) (hne : ∀ vec ∈ vecs, vec ≠ [])
    (hlen : parts.length = vecs.length)
    (hsep : Separate size (parts ++ [(poss, bag)])) (hl : e.key.length = size)
    (hagree : AgreesOutside (writtenPoss (parts ++ [(poss, bag)])) key e.key)
    (hunbound : ∀ pos ∈ poss, e.key[pos]? = (List.replicate size (default : K))[pos]?) :
    Ensures ((FullCartesianResult.new vecs (parts.map Prod.fst)).forEach Arithmetic.sizeT.mul boolValued
        copyKey (fun precalculated e => if sets then e.setValue precalculated else e) e)
      (fun res => List.Forall₂ (fun tuple e' => WrittenTo (parts ++ [(poss, bag)]) key tuple.key e' ∧
        e'.value = if sets then tuple.value else e.value)
          (reportedProducts boolValued vecs [Entry.makeFilled size 1]) res.1) := by
  have hmapping : (parts ++ [(poss, bag)]).map Prod.fst = parts.map Prod.fst ++ [poss] := by simp
  have hparts : writtenPoss parts ⊆ writtenPoss (parts ++ [(poss, bag)]) := fun pos hpos => by
    obtain ⟨part, hm, hpos⟩ := mem_writtenPoss.mp hpos
    exact mem_writtenPoss.mpr ⟨part, List.mem_append_left _ hm, hpos⟩
  have hdisj : (writtenPoss parts).Disjoint poss := by
    have hdisj := hsep.disjoint
    rw [hmapping, List.pairwise_append] at hdisj
    intro pos hpos hpos'
    obtain ⟨part, hm, hpos⟩ := mem_writtenPoss.mp hpos
    exact hdisj.2.2 part.1 (List.mem_map_of_mem hm) poss (List.mem_singleton_self _) hpos hpos'
  let Q (e' : Entry K) : Prop :=
    AgreesOutside (writtenPoss parts) e.key e'.key ∧ (sets = false → e'.value = e.value)
  have hwrite (e' : Entry K) (tuple : List (List K)) (h : Q e') :
      Q (e'.setKey (writeTuple copyKey (parts.map Prod.fst) tuple e'.key)) :=
    ⟨h.1.trans (AgreesOutside.writeTuple _ tuple e'.key), h.2⟩
  have hbody (value : Nat) (e' : Entry K) (h : Q e') :
      Q (if sets then e'.setValue value else e') := by
    cases sets with
    | false => exact h
    | true => exact ⟨h.1, by simp⟩
  have hlength : (parts.map Prod.fst).length = vecs.length := by rw [List.length_map, hlen]
  refine (forEach_reported (r := .new vecs (parts.map Prod.fst)) hwrite
    (fun tuple _ => hbody tuple.value) hne hlength ⟨.refl _ _, fun _ => rfl⟩).mono fun res hres => ?_
  rw [reportedProducts, List.flatMap_singleton]
  refine List.forall₂_map_left_iff.mpr ?_
  have hall : ∀ tuple ∈ reportedTuples (mulMod (2 ^ 64)) boolValued vecs,
      tuple ∈ reportedTuples (mulMod (2 ^ 64)) boolValued vecs := fun _ h => h
  refine ((List.forall₂_and_left _ _).mpr ⟨hall, hres.2⟩).imp ?_
  rintro tuple entry ⟨hm, e₁, ⟨hagree₁, hvalue₁⟩, rfl⟩
  have hunchanged (pos) (hpos : pos ∈ poss) :
      (writeTuple copyKey (parts.map Prod.fst) tuple.key e₁.key)[pos]? = e.key[pos]? :=
    (hagree₁.trans (AgreesOutside.writeTuple _ tuple.key e₁.key)).getElem pos fun h => hdisj h hpos
  refine ⟨⟨e₁.key, hagree.trans (hagree₁.mono hparts), ?_⟩, ?_⟩
  · rw [hmapping, writeTuple_concat (hlength.trans (length_of_mem_reportedTuples hm).symm)]
    refine Eq.trans ?_ (copyKey_unbound ?_ fun pos hpos => ?_).symm
    · cases sets <;> rfl
    · exact (Version.length_writeTuple .query _ tuple.key e₁.key).trans (hagree₁.length.trans hl)
    · exact (hunchanged pos hpos).trans (hunbound pos hpos)
  · cases sets with
    | false => exact hvalue₁ rfl
    | true =>
      show tuple.value = mulMod (2 ^ 64) 1 tuple.value
      rw [mulMod, Nat.one_mul, Nat.mod_eq_of_lt (value_lt_of_mem_reportedTuples hm)]

end Loops

section Operator

variable {sub : GraphOperator K V} {odg : DirectedLabelledGraph} {operands : List (ConstHypertrie K V)}
variable {e : Entry K} {found : Component → List (Entry K)} {others : List Component}
variable {subOperands : List (ConstHypertrie K V)}

def components (odg : DirectedLabelledGraph) : List Component :=
  odg.cartesianComponents.map (component odg)

/-- The component that is iterated, and the others. -/
def iterated [Zero D] [LT D] [DecidableLT D] (c : Choices K V D) (projVars : List Label)
    (odg : DirectedLabelledGraph) (operands : List (ConstHypertrie K V)) :
    Option (Component × List Component) := do
  let (_, _, pos) ← initCartesian projVars
    (fun comp operands => c.estimate projVars (componentGraph odg comp) operands) (components odg) operands
  let comp ← (components odg)[pos]?
  some (comp, (components odg).eraseIdx pos)

/-- What the operators of the components find. Different components have different variables, and
what is found counts. -/
structure FindsParts (projVars : List Label) (sub : GraphOperator K V) (odg : DirectedLabelledGraph)
    (operands : List (ConstHypertrie K V)) (found : Component → List (Entry K)) : Prop where
  size_le : odg.size ≤ posTypeCount
  disjoint : (components odg).Pairwise fun comp comp' =>
    comp.operandsVarIdsSet.Disjoint comp'.operandsVarIdsSet
  finds : ∀ comp ∈ components odg, ∃ subOperands, comp.extractOperands operands = some subOperands ∧
    subEntries projVars (componentOperator sub odg) comp subOperands = some (found comp)
  value_ne_zero : ∀ comp ∈ components odg, ∀ e ∈ found comp, e.value ≠ 0

omit [DecidableEq K] in
theorem subEntries_frames (hs : sub.Frames boolValued projVars) :
    Permits (subEntries projVars (componentOperator sub odg) comp subOperands)
      (fun out => ∀ e ∈ out, Framed boolValued projVars (componentGraph odg comp).operandsVarIdsSet
        (List.replicate projVars.length default) e) := by
  rw [subEntries]
  split
  · refine Permits.map ((component_singleResult hs).mono fun e he => ?_)
    split
    · simpa using he
    · simp
  · exact component_generator hs

theorem FindsParts.represents (h : FindsParts projVars sub odg operands found)
    (hs : sub.Frames boolValued projVars) (hm : comp ∈ components odg) :
    Represents boolValued projVars.length (comp.resultPoss projVars) (weight (found comp))
      (found comp) := by
  obtain ⟨subOperands, -, hfound⟩ := h.finds comp hm
  have hvalue := h.value_ne_zero comp hm
  have hframed := subEntries_frames hs _ hfound
  obtain ⟨vs, hvs, rfl⟩ := List.mem_map.mp hm
  rw [componentGraph_component fun v hv =>
    (lt_of_mem_cartesianComponents hvs hv).trans_le h.size_le] at hframed
  refine ⟨fun e he => boundAt_of_agreesOutside (hframed e he).agrees, hvalue, fun hb e he => ?_,
    fun _ => rfl⟩
  have hle := (hframed e he).value_le hb
  have hpos := Nat.pos_of_ne_zero (hvalue e he)
  omega

/-- The bag of a component at the positions of its projected variables. -/
noncomputable def optionalPart (projVars : List Label) (found : Component → List (Entry K))
    (comp : Component) : List Nat × (List K → Nat) :=
  (comp.resultPoss projVars, optionalBag projVars.length (weight (found comp)))

theorem separate_of_perm (h : FindsParts projVars sub odg operands found) {comps : List Component}
    (hperm : comps.Perm (components odg)) :
    Separate projVars.length (comps.map (optionalPart projVars found)) := by
  have hmap : (comps.map (optionalPart projVars found)).map Prod.fst =
      comps.map (Component.resultPoss projVars) := List.map_map
  refine ⟨?_, fun poss hm pos hpos => ?_⟩
  · rw [hmap]
    refine List.pairwise_map.mpr ?_
    exact ((hperm.pairwise_iff fun hdisj => hdisj.symm).mpr h.disjoint).imp Component.disjoint_resultPoss
  · rw [hmap] at hm
    obtain ⟨comp, -, rfl⟩ := List.mem_map.mp hm
    exact Component.lt_of_mem_resultPoss hpos

/-- A variable of the graph is one of a component. -/
theorem exists_component_of_mem {l : Label} (hl : l ∈ odg.operandsVarIdsSet) :
    ∃ comp ∈ components odg, l ∈ comp.operandsVarIdsSet := by
  obtain ⟨vars, hvars, hl⟩ := DirectedLabelledGraph.mem_operandsVarIdsSet.mp hl
  rw [← DirectedLabelledGraph.map_operandVarIds_vertices] at hvars
  obtain ⟨v, hv, rfl⟩ := List.mem_map.mp hvars
  obtain ⟨vs, hvs, hv⟩ := Components.exists_component hv
  refine ⟨component odg vs, List.mem_map_of_mem hvs, ?_⟩
  exact DirectedLabelledGraph.mem_operandsVarIdsSet.mpr ⟨_, List.mem_map_of_mem hv, hl⟩

/-- Only places of the components are cleared, -/
theorem agreesOutside_clear (projVars : List Label) (found : Component → List (Entry K))
    {comps : List Component} (hperm : comps.Perm (components odg)) (e : Entry K) :
    AgreesOutside (writtenPoss (comps.map (optionalPart projVars found))) e.key
      (clearEntry projVars odg.operandsVarIdsSet e).key := by
  refine AgreesOutside.foldl_set (fun _ => default) _ (fun pos hpos => ?_) e.key
  obtain ⟨l, hl, hpos⟩ := mem_usedEntryPoss.mp hpos
  obtain ⟨comp, hm, hl⟩ := exists_component_of_mem hl
  refine mem_writtenPoss.mpr ⟨_, List.mem_map_of_mem (hperm.mem_iff.mpr hm), ?_⟩
  exact Component.mem_resultPoss.mpr ⟨l, hl, hpos⟩

omit [DecidableEq K] in
/-- and they are unbound then. -/
theorem getElem?_clearEntry (hl : e.key.length = projVars.length) (hm : comp ∈ components odg) :
    ∀ pos ∈ comp.resultPoss projVars, (clearEntry projVars odg.operandsVarIdsSet e).key[pos]? =
      (List.replicate projVars.length (default : K))[pos]? := by
  intro pos hpos
  have hlt := Component.lt_of_mem_resultPoss hpos
  obtain ⟨vs, -, rfl⟩ := List.mem_map.mp hm
  obtain ⟨l, hmem, hpos⟩ := Component.mem_resultPoss.mp hpos
  refine (getElem?_clear _ e.key pos).trans ?_
  rw [if_pos (mem_usedEntryPoss.mpr ⟨l, operandsVarIdsSet_subgraph vs hmem, hpos⟩),
    List.getElem?_eq_getElem (hl ▸ hlt), List.getElem?_replicate, if_pos hlt]
  rfl

omit [DecidableEq K] in
theorem nodup_subResultVec {out : List (Entry K)} (h : (out.map (·.key)).Nodup) (size : Nat) :
    ((Version.query.subResultVec size out).map (·.key)).Nodup := by
  by_cases hempty : out = []
  · rw [hempty]
    exact List.nodup_singleton _
  · rwa [subResultVec_of_ne_nil hempty]

theorem representsAll_materialised (h : FindsParts projVars sub odg operands found)
    (hs : sub.Frames boolValued projVars) {comps : List Component} (hsub : comps ⊆ components odg) :
    RepresentsAll boolValued projVars.length (comps.map (optionalPart projVars found))
      (materialisedAll M boolValued projVars found comps) := by
  refine List.forall₂_map_left_iff.mpr (List.forall₂_map_right_iff.mpr (List.forall₂_same.mpr ?_))
  exact fun comp hm => (Represents.materialised (h.represents hs (hsub hm))).optional

/-- All results, with the iterated ones last. -/
theorem representsAll_parts (h : FindsParts projVars sub odg operands found)
    (hs : sub.Frames boolValued projVars) (hperm : (others ++ [comp]).Perm (components odg)) :
    RepresentsAll boolValued projVars.length ((others ++ [comp]).map (optionalPart projVars found))
      (materialisedAll M boolValued projVars found others ++
        [Version.query.subResultVec projVars.length (found comp)]) := by
  have hsub : others ⊆ components odg := fun other hm => hperm.mem_iff.mp (List.mem_append_left _ hm)
  have hmem : comp ∈ components odg := hperm.mem_iff.mp (by simp)
  rw [List.map_append]
  exact List.rel_append (representsAll_materialised h hs hsub)
    (.cons (h.represents hs hmem).optional .nil)

theorem materialisedAll_ne_nil (boolValued : Bool) (projVars : List Label)
    (found : Component → List (Entry K)) (comps : List Component) :
    ∀ vec ∈ materialisedAll M boolValued projVars found comps, vec ≠ [] :=
  List.forall_mem_map.mpr fun _ _ => subResultVec_ne_nil (by simp)

theorem nodup_materialisedAll (boolValued : Bool) (projVars : List Label)
    (found : Component → List (Entry K)) (comps : List Component) :
    ∀ vec ∈ materialisedAll M boolValued projVars found comps, (vec.map (·.key)).Nodup :=
  List.forall_mem_map.mpr fun _ _ => nodup_subResultVec (nodup_materialised _ _) _

/-- Nothing sets the values: the iterated component is streamed and has no solution. -/
def Unset (projVars : List Label) (found : Component → List (Entry K)) (comp : Component) : Prop :=
  comp.allResultDone projVars = false ∧ found comp = []

/-- What is yielded: the tuples are written with what is reported, unless nothing sets the values. -/
structure YieldsParts (boolValued : Bool) (projVars : List Label) (found : Component → List (Entry K))
    (comp : Component) (parts : List (List Nat × (List K → Nat))) (key : List K) (value : Nat)
    (vecs : List (List (Entry K))) (out : List (Entry K)) : Prop where
  unset : Unset projVars found comp → List.Forall₂ (fun tuple e => WrittenTo parts key tuple.key e ∧
    e.value = value) (reportedProducts boolValued vecs
      (Version.query.subResultVec projVars.length (found comp))) out
  set : ¬ Unset projVars found comp → YieldsTuples parts key (reportedProducts boolValued vecs
    (Version.query.subResultVec projVars.length (found comp))) out

theorem iterated_spec {parts : List (List Nat × (List K → Nat))} {vecs : List (List (Entry K))}
    {key : List K} {bag : List K → Nat}
    (hfound : subEntries projVars (componentOperator sub odg) comp subOperands = some (found comp))
    (hne : ∀ vec ∈ vecs, vec ≠ []) (hlen : parts.length = vecs.length)
    (hsep : Separate projVars.length (parts ++ [(comp.resultPoss projVars, bag)]))
    (hl : e.key.length = projVars.length)
    (hagree : AgreesOutside (writtenPoss (parts ++ [(comp.resultPoss projVars, bag)])) key e.key)
    (hunbound : ∀ pos ∈ comp.resultPoss projVars,
      e.key[pos]? = (List.replicate projVars.length (default : K))[pos]?) :
    Ensures (if comp.allResultDone projVars then
        single .sizeT boolValued true projVars (componentOperator sub odg) comp subOperands
          (.new vecs (parts.map Prod.fst)) e
      else streamed .sizeT boolValued true projVars (componentOperator sub odg) comp subOperands
        (.new vecs (parts.map Prod.fst)) e)
      (fun res => YieldsParts boolValued projVars found comp (parts ++ [(comp.resultPoss projVars, bag)])
        key e.value vecs res.1) := by
  have hiterate (iteratedOut : List (Entry K)) := iterate_spec boolValued
    (comp.resultPoss projVars) bag iteratedOut hne hlen hagree
  have hmissing (sets : Bool) := forEach_missing boolValued sets hne hlen hsep hl hagree
    hunbound
  rw [subEntries] at hfound
  by_cases hdone : comp.allResultDone projVars
  · have hset : ¬ Unset projVars found comp := fun h => by simp [h.1] at hdone
    rw [if_pos hdone] at hfound ⊢
    obtain ⟨last, hsingle, hlast⟩ := Option.map_eq_some_iff.mp hfound
    rw [single, hsingle]
    simp only [Option.bind_eq_bind, Option.bind_some]
    by_cases hvalue : last.value ≠ 0
    · rw [if_pos hvalue] at hlast ⊢
      have hlast' := hiterate [last]
      rw [iterate_singleton] at hlast'
      refine hlast'.mono fun res hres => ⟨fun h => absurd h hset, fun _ => ?_⟩
      rw [← hlast]
      exact hres.2
    · rw [if_neg hvalue] at hlast ⊢
      rw [if_pos trivial]
      refine (hmissing true).mono fun res hres => ⟨fun h => absurd h hset, fun _ => ?_⟩
      rw [← hlast]
      exact hres
  · rw [if_neg hdone] at hfound ⊢
    rw [streamed, hfound]
    simp only [Option.bind_eq_bind, Option.bind_some]
    by_cases hempty : found comp = []
    · have hunset : Unset projVars found comp := ⟨by simpa using hdone, hempty⟩
      rw [hempty, iterate]
      refine (hmissing false).mono fun res hres => ⟨fun _ => ?_, fun h => absurd hunset h⟩
      rw [hempty]
      exact hres
    · have hset : ¬ Unset projVars found comp := fun h => hempty h.2
      obtain ⟨res, hres, hyields⟩ := hiterate (found comp)
      rw [hres, Option.bind_some, if_neg (by simpa using hempty)]
      refine Ensures.pure ⟨fun h => absurd h hset, fun _ => ?_⟩
      rw [subResultVec_of_ne_nil hempty]
      exact hyields.2

section Graph

variable [Zero D] [LT D] [DecidableLT D] {c : Choices K V D}

/-- What is known when the products are enumerated. -/
structure Prepared (M : Type → Type → Type) [UnorderedMap M] (boolValued : Bool) (projVars : List Label)
    (sub : GraphOperator K V) (odg : DirectedLabelledGraph) (found : Component → List (Entry K))
    (comp : Component) (others : List Component) (subOperands : List (ConstHypertrie K V))
    (vecs : List (List (Entry K))) : Prop where
  perm : (others ++ [comp]).Perm (components odg)
  found_eq : subEntries projVars (componentOperator sub odg) comp subOperands = some (found comp)
  wrapped : List.Forall₂ Wrapped vecs (materialisedAll M boolValued projVars found others)

theorem exists_prepared (h : FindsParts projVars sub odg operands found)
    (hs : sub.Frames boolValued projVars) (hne : odg.cartesianComponents ≠ [])
    (hiterated : iterated c projVars odg operands = some (comp, others))
    (hl : e.key.length = projVars.length) :
    ∃ subOperands vecs, Prepared M boolValued projVars sub odg found comp others subOperands vecs ∧
      prepare (M := M) c .sizeT boolValued projVars sub true odg operands e = some (comp, subOperands,
        some (.new vecs (others.map (Component.resultPoss projVars)))) := by
  obtain ⟨subOperandss, hmap, hall⟩ := Ensures.mapM h.finds
  obtain ⟨pos, part, hinit, hpart, hprepare⟩ := prepare_eq_map (M := M) c projVars hne hmap
  have hfst : ((components odg).zip subOperandss).map Prod.fst = components odg :=
    List.map_fst_zip hall.length_eq.le
  have hcomp : (components odg)[pos]? = some part.1 := by
    rw [← hfst, List.getElem?_map]
    exact congrArg (Option.map Prod.fst) hpart
  rw [iterated, components, hinit] at hiterated
  simp only [Option.bind_eq_bind, Option.bind_some] at hiterated
  rw [← components, hcomp, Option.bind_some, Option.some.injEq, Prod.mk.injEq] at hiterated
  obtain ⟨rfl, rfl⟩ := hiterated
  have hothers : ((((components odg).zip subOperandss).eraseIdx pos).map Prod.fst) =
      (components odg).eraseIdx pos := by
    rw [← List.eraseIdx_map, hfst]
  have hparts (other) (hm : other ∈ (components odg).zip subOperandss) :
      subEntries projVars (componentOperator sub odg) other.1 other.2 = some (found other.1) :=
    List.forall₂_zip hall hm
  obtain ⟨results, hresults, outs, rfl, hwrapped⟩ := getSubResults_wrapped (M := M) boolValued
    fun other hm =>
      ⟨hparts other (List.mem_of_mem_eraseIdx hm), (h.represents hs
        (List.of_mem_zip (List.mem_of_mem_eraseIdx hm)).1).value_bool⟩
  rw [hothers] at hwrapped
  obtain ⟨hpos, hget⟩ := List.getElem?_eq_some_iff.mp hcomp
  refine ⟨part.2, _, ⟨?_, hparts part (List.mem_of_getElem? hpart), hwrapped⟩, ?_⟩
  · rw [← hget]
    exact (List.perm_append_singleton _ _).trans (List.getElem_cons_eraseIdx_perm hpos)
  · rw [hprepare]
    rw [components] at hresults
    rw [hresults, hl, ← hothers, List.map_map]
    rfl

theorem optionalGenerator_yields (h : FindsParts projVars sub odg operands found)
    (hs : sub.Frames boolValued projVars) (hne : odg.cartesianComponents ≠ [])
    (hiterated : iterated c projVars odg operands = some (comp, others))
    (hl : e.key.length = projVars.length) :
    (others ++ [comp]).Perm (components odg) ∧ ∃ vecs,
      List.Forall₂ Wrapped vecs (materialisedAll M boolValued projVars found others) ∧
      Ensures (graphGenerator (M := M) c .sizeT boolValued projVars sub true odg operands e) (fun res =>
        YieldsParts boolValued projVars found comp ((others ++ [comp]).map (optionalPart projVars found))
          e.key e.value vecs res.1) := by
  have hlength : (clearEntry projVars odg.operandsVarIdsSet e).key.length = projVars.length :=
    (length_clearEntry projVars odg.operandsVarIdsSet e).trans hl
  obtain ⟨subOperands, vecs, hprep, hprepare⟩ := exists_prepared (M := M) h hs hne hiterated hlength
  refine ⟨hprep.perm, vecs, hprep.wrapped, ?_⟩
  have hmapping : others.map (Component.resultPoss projVars) =
      (others.map (optionalPart projVars found)).map Prod.fst := by
    rw [List.map_map]
    rfl
  have hparts : (others ++ [comp]).map (optionalPart projVars found) =
      others.map (optionalPart projVars found) ++ [optionalPart projVars found comp] := List.map_append
  have hsep := separate_of_perm h hprep.perm
  have hagree := agreesOutside_clear projVars found hprep.perm e
  have hmem : comp ∈ components odg := hprep.perm.mem_iff.mp (by simp)
  have hlen : (others.map (optionalPart projVars found)).length = vecs.length := by
    rw [hprep.wrapped.length_eq, materialisedAll, List.length_map, List.length_map]
  rw [hparts] at hsep hagree ⊢
  rw [graphGenerator]
  simp only [hprepare, Option.bind_eq_bind, Option.bind_some, hmapping]
  exact iterated_spec hprep.found_eq (ne_nil_of_wrapped hprep.wrapped (materialisedAll_ne_nil _ _ _ _)) hlen
    hsep hlength hagree (getElem?_clearEntry hl hmem)

/-- The values that are yielded for a key sum up to its number in the product of the bags, where
an empty bag is replaced by the single unbound tuple. -/
def YieldsProduct (boolValued : Bool) (projVars : List Label) (found : Component → List (Entry K))
    (odg : DirectedLabelledGraph) (e : Entry K) (out : List (Entry K)) : Prop :=
  ∀ key, amount boolValued (weight out key) = amount boolValued
    (product e.key ((components odg).map (optionalPart projVars found)) key)

/-- If nothing sets the values, all tuples of the product are as many as the entry that is given says
already. Otherwise the values of the products fit. -/
structure Kept (M : Type → Type → Type) [UnorderedMap M] (boolValued : Bool) (projVars : List Label)
    (found : Component → List (Entry K)) (odg : DirectedLabelledGraph) (comp : Component)
    (others : List Component) (e : Entry K) : Prop where
  unset : Unset projVars found comp → ∀ key,
    product e.key ((components odg).map (optionalPart projVars found)) key ≠ 0 →
      amount boolValued (product e.key ((components odg).map (optionalPart projVars found)) key) =
        amount boolValued e.value
  fits : ¬ Unset projVars found comp → boolValued = false →
    Fits (materialisedAll M boolValued projVars found others)
      (Version.query.subResultVec projVars.length (found comp))

theorem optionalGenerator_iff (h : FindsParts projVars sub odg operands found)
    (hs : sub.Frames boolValued projVars) (hne : odg.cartesianComponents ≠ [])
    (hiterated : iterated c projVars odg operands = some (comp, others))
    (hl : e.key.length = projVars.length) :
    Ensures (graphGenerator (M := M) c .sizeT boolValued projVars sub true odg operands e) (fun res =>
      YieldsProduct boolValued projVars found odg e res.1 ↔
        Kept M boolValued projVars found odg comp others e) := by
  obtain ⟨hperm, vecs, hwrapped, hyields⟩ := optionalGenerator_yields (M := M) h hs hne hiterated hl
  have hsep := separate_of_perm h hperm
  have hall := representsAll_parts (M := M) h hs hperm
  have hkeys := (keys_reportedProducts boolValued vecs
    (Version.query.subResultVec projVars.length (found comp))).trans (keys_of_wrapped hwrapped _)
  have hproduct (key : List K) : product e.key ((components odg).map (optionalPart projVars found)) key =
      product e.key ((others ++ [comp]).map (optionalPart projVars found)) key :=
    (product_perm (hperm.map _)).symm
  refine hyields.mono fun res hres => ?_
  simp only [YieldsProduct, hproduct]
  by_cases hunset : Unset projVars found comp
  · have hnodup : ∀ out ∈ materialisedAll M boolValued projVars found others ++
        [Version.query.subResultVec projVars.length (found comp)], (out.map (·.key)).Nodup := by
      refine List.forall_mem_append.mpr ⟨nodup_materialisedAll _ _ _ _, ?_⟩
      rw [hunset.2]
      exact List.forall_mem_singleton.mpr (List.nodup_singleton _)
    have hwritten := (hres.unset hunset).imp fun _ _ h => h.1
    have hvalue : ∀ e' ∈ res.1, e'.value = e.value :=
      forall_mem_of_forall₂ (hres.unset hunset) fun _ _ h => h.2
    have hweight := weight_unset hsep hl hall hnodup
      (hkeys ▸ List.forall₂_map_left_iff.mpr hwritten) hvalue
    have hequal (key : List K) : amount boolValued (weight res.1 key) = amount boolValued
        (product e.key ((others ++ [comp]).map (optionalPart projVars found)) key) ↔
        (product e.key ((others ++ [comp]).map (optionalPart projVars found)) key ≠ 0 →
          amount boolValued (product e.key ((others ++ [comp]).map (optionalPart projVars found)) key) =
            amount boolValued e.value) := by
      rw [hweight key]
      by_cases hzero : product e.key ((others ++ [comp]).map (optionalPart projVars found)) key = 0
      · rw [if_pos hzero, hzero]
        exact iff_of_true rfl fun h => absurd rfl h
      · rw [if_neg hzero]
        exact ⟨fun heq _ => heq.symm, fun heq => (heq hzero).symm⟩
    simp only [hequal]
    constructor
    · refine fun hkept => ⟨fun _ key => ?_, fun hset => absurd hunset hset⟩
      rw [hproduct]
      exact hkept key
    · intro hkept key
      have hkey := hkept.unset hunset key
      rwa [hproduct] at hkey
  · rw [yieldsTuples_iff hsep hl hall hwrapped (materialisedAll_ne_nil _ _ _ _)
      (nodup_materialisedAll _ _ _ _) (subResultVec_ne_nil (by simp)) (hres.set hunset)]
    exact ⟨fun hfits => ⟨fun h => absurd h hunset, fun _ => hfits⟩, fun hkept => hkept.fits hunset⟩

omit [DecidableEq K] [Inhabited K] in
theorem eq_of_agreesOutside_nil {key key' : List K} (h : AgreesOutside [] key key') : key' = key :=
  List.ext_getElem? fun pos => h.getElem pos List.not_mem_nil

/-- Without projected variables, the value of any tuple is the number of all solutions. -/
theorem amount_total {parts : List (List Nat × (List K → Nat))} {outs : List (List (Entry K))}
    {tuple : Weighted (List (List K))} {size : Nat} {key : List K}
    (hall : RepresentsAll boolValued size parts outs) (hnil : ∀ part ∈ parts, part.1 = [])
    (hnodup : ∀ out ∈ outs, (out.map (·.key)).Nodup) (hl : key.length = size)
    (hm : tuple ∈ tuples outs) :
    amount boolValued tuple.value = amount boolValued (∑ᶠ key', product key parts key') := by
  have hnil' : ∀ poss ∈ parts.map Prod.fst, poss = [] := List.forall_mem_map.mpr hnil
  have hwritten : writtenPoss parts = [] := List.eq_nil_iff_forall_not_mem.mpr fun pos hpos => by
    obtain ⟨part, hpart, hpos⟩ := mem_writtenPoss.mp hpos
    rw [hnil part hpart] at hpos
    exact List.not_mem_nil hpos
  have hsum : ∑ᶠ key', product key parts key' = product key parts key := by
    refine finsum_eq_single _ key fun key' hne => if_neg fun hagree => hne ?_
    rw [hwritten] at hagree
    exact eq_of_agreesOutside_nil hagree
  have hkey : tuple.key = parts.map fun part => restrict part.1 key := by
    have hbound := ((List.forall₂_and_left _ _).mpr ⟨hnil', hall.bound tuple hm⟩).imp
      (S := fun poss source => restrict poss key = source) fun poss source h =>
        h.2.eq_restrict hl (by simp [h.1])
    rw [← List.forall₂_map_left_iff (f := fun poss => restrict poss key) (R := Eq),
      List.forall₂_eq_eq_eq, List.map_map] at hbound
    exact hbound.symm
  have hkeys : ((tuples outs).map (·.key)).Nodup := by
    rw [keys_tuples]
    exact Odometer.nodup_sections (List.forall_mem_map.mpr hnodup)
  rw [hsum, product, if_pos (AgreesOutside.refl _ _), ← hall.amount_eq, ← hkey,
    weight_of_nodup hkeys hm]

theorem optionalSingleResult_spec (h : FindsParts projVars sub odg operands found)
    (hs : sub.Frames boolValued projVars) (hne : odg.cartesianComponents ≠ [])
    (hiterated : iterated c projVars odg operands = some (comp, others))
    (hl : e.key.length = projVars.length)
    (hdone : ∀ comp ∈ components odg, comp.allResultDone projVars = true)
    (hfits : boolValued = false → Fits (materialisedAll M boolValued projVars found others)
      (Version.query.subResultVec projVars.length (found comp))) :
    Ensures (graphSingleResult (M := M) c .sizeT boolValued projVars sub true odg operands e) (fun e' =>
      amount boolValued e'.value = amount boolValued (∑ᶠ key,
        product e.key ((components odg).map (optionalPart projVars found)) key)) := by
  have hlength : (clearEntry projVars odg.operandsVarIdsSet e).key.length = projVars.length :=
    (length_clearEntry projVars odg.operandsVarIdsSet e).trans hl
  obtain ⟨subOperands, vecs, hprep, hprepare⟩ := exists_prepared (M := M) h hs hne hiterated hlength
  have hall := representsAll_parts (M := M) h hs hprep.perm
  have hnil : ∀ part ∈ (others ++ [comp]).map (optionalPart projVars found), part.1 = [] := by
    refine List.forall_mem_map.mpr fun comp hm => ?_
    exact Component.resultPoss_of_done (hdone comp (hprep.perm.mem_iff.mp hm))
  obtain ⟨single, hcall, hfoundNodup, last, hmem, hvalue⟩ :=
    exists_single (hdone comp (hprep.perm.mem_iff.mp (by simp))) hprep.found_eq
  have hmats := materialisedAll_ne_nil (M := M) boolValued projVars found others
  have hnodup : ∀ out ∈ materialisedAll M boolValued projVars found others ++
      [Version.query.subResultVec projVars.length (found comp)], (out.map (·.key)).Nodup := by
    refine List.forall_mem_append.mpr ⟨nodup_materialisedAll _ _ _ _, ?_⟩
    exact List.forall_mem_singleton.mpr (nodup_subResultVec hfoundNodup _)
  obtain ⟨current, rest, hsections⟩ := List.exists_cons_of_ne_nil (Odometer.sections_ne_nil hmats)
  have hcurrent : ofTuple current ∈ tuples (materialisedAll M boolValued projVars found others) := by
    rw [tuples_eq_map_sections, hsections]
    exact List.mem_cons_self
  have htuple : (⟨(ofTuple current).key ++ [last.key], (ofTuple current).value * last.value⟩ :
      Weighted (List (List K))) ∈ tuples (materialisedAll M boolValued projVars found others ++
        [Version.query.subResultVec projVars.length (found comp)]) := by
    rw [tuples_concat]
    exact List.mem_flatMap.mpr ⟨last, hmem, List.mem_map_of_mem hcurrent⟩
  have hamount := amount_total hall hnil hnodup hl htuple
  simp only [product_perm (hprep.perm.map (optionalPart projVars found))] at hamount
  rw [graphSingleResult]
  simp only [hprepare, Option.bind_eq_bind, Option.bind_some]
  rw [singleProduct, hcall, Option.bind_eq_bind, Option.bind_some]
  cases boolValued with
  | true =>
    rw [amount_of_ne_zero (hall.value_ne_zero _ htuple)] at hamount
    exact Ensures.pure hamount
  | false =>
    have hfits := hfits rfl
    obtain ⟨hval, hvalLast⟩ := List.forall_mem_append.mp hall.value_of_mem
    have hvalLast := List.forall_mem_singleton.mp hvalLast
    have hlast : Version.query.subResultVec projVars.length (found comp) ≠ [] :=
      subResultVec_ne_nil (by simp)
    have hvecs := eq_of_wrapped hprep.wrapped
      (hfits.value_lt hmats hval hlast hvalLast (nodup_materialisedAll _ _ _ _))
    have hlen : (others.map (Component.resultPoss projVars)).length = vecs.length := by
      rw [hvecs, materialisedAll, List.length_map, List.length_map]
    have hprod := hfits.foldl_value hval hlast hvalLast (hsections ▸ List.mem_cons_self)
    rw [← hvecs] at hsections hmats
    rw [if_neg Bool.false_ne_true, restart]
    simp only [new, restartFrom_spec hmats hlen hsections, Option.bind_eq_bind, Option.bind_some]
    refine Ensures.pure (Eq.trans ?_ hamount)
    show (if true && decide (single.value = 0) then _ else mulMod (2 ^ 64) single.value _) =
      (ofTuple current).value * last.value
    have hlt := hfits.1 _ htuple
    have hlt : (ofTuple current).value * last.value < 2 ^ 64 := hlt
    rw [if_neg Bool.false_ne_true, hprod]
    rw [hvalue] at hlt ⊢
    by_cases hzero : single.value = 0
    · simp [hzero]
    · rw [if_neg hzero] at hlt ⊢
      rw [if_neg (by simpa using hzero), mulMod, Nat.mul_comm, Nat.mod_eq_of_lt hlt]

theorem ne_nil_of_nextOp (h : nextOp projVars odg = .cartesian) : odg.cartesianComponents ≠ [] := by
  intro hnil
  rw [nextOp, hnil] at h
  split at h
  · cases h
  · split at h
    · split at h
      · split at h
        · cases h
        · split at h <;> cases h
      · cases h
    · split at h
      · cases h
      · rw [if_neg (by simp)] at h
        split at h <;> cases h

variable {t : HypertrieTrait K V} {ns : NodeStorage M K V} {fuel : Nat}
variable [DecidableEq V]

/-- The products of optional components are complete unless values are left unset that matter, or do
not fit. -/
theorem optionalProduct_iff (hlen : projVars.length ≤ posTypeCount)
    (hop : nextOp projVars odg = .cartesian) (hopt : odg.optionalCartesian = true)
    (h : FindsParts projVars (getSubOperator (M := M) t ns c .sizeT boolValued projVars fuel) odg operands
      found)
    (hiterated : iterated c projVars odg operands = some (comp, others))
    (hl : e.key.length = projVars.length) :
    (Ensures ((getSubOperator (M := M) t ns c .sizeT boolValued projVars (fuel + 1)).generator odg
        operands e) (fun res => YieldsProduct boolValued projVars found odg e res.1) ∧
      ((∀ comp ∈ components odg, comp.allResultDone projVars = true) →
        Ensures ((getSubOperator (M := M) t ns c .sizeT boolValued projVars (fuel + 1)).singleResult odg
          operands e) (fun e' => amount boolValued e'.value = amount boolValued (∑ᶠ key,
            product e.key ((components odg).map (optionalPart projVars found)) key)))) ↔
      Kept M boolValued projVars found odg comp others e := by
  have hmul (n : Nat) (hn : n ≤ 1) : Arithmetic.sizeT.mul n 1 ≤ 1 := by
    show n * 1 % 2 ^ 64 ≤ 1
    exact (Nat.mod_le _ _).trans (by omega)
  have hs : (getSubOperator (M := M) t ns c .sizeT boolValued projVars fuel).Frames boolValued projVars :=
    getSubOperator_frames hmul hlen fuel
  have hne := ne_nil_of_nextOp hop
  rw [getSubOperator]
  simp only [hop, hopt]
  obtain ⟨res, hres, hiff⟩ := optionalGenerator_iff (M := M) h hs hne hiterated hl
  rw [← hiff, hres]
  constructor
  · rintro ⟨⟨res', hres', hyields⟩, -⟩
    obtain rfl := Option.some.inj hres'
    exact hyields
  · intro hyields
    refine ⟨Ensures.pure hyields, fun hdone => ?_⟩
    refine optionalSingleResult_spec (M := M) h hs hne hiterated hl hdone fun hb => ?_
    have hmem : comp ∈ components odg :=
      (optionalGenerator_yields (M := M) h hs hne hiterated hl).1.mem_iff.mp (by simp)
    exact (hiff.mp hyields).fits (fun hunset => by simpa [hdone comp hmem] using hunset.1) hb

end Graph

end Operator

section Example

/-- A join of two operands and a single operand, both optional. -/
def twoParts : DirectedLabelledGraph where
  varIds := [[98], [98], [99, 100]]
  edges := [⟨0, 1, 98, false⟩, ⟨1, 0, 98, false⟩, ⟨0, 2, 0, true⟩, ⟨2, 0, 0, true⟩, ⟨1, 2, 0, true⟩,
    ⟨2, 1, 0, true⟩]

def twoPartsKeys : List (Nat × List (List (BitVec 64))) :=
  [(1, [[5], [6]]), (1, [[7], [8]]), (2, [[9, 1], [9, 2], [3, 1]])]

def twoPartsOperands : List (ConstHypertrie (BitVec 64) Bool) := keyOperands twoPartsKeys

def twoPartsOperator (estimate : DirectedLabelledGraph → Nat) (fuel : Nat) :
    GraphOperator (BitVec 64) Bool :=
  getSubOperator (M := AssocMap) defaultBoolTrait (keyStorage twoPartsKeys) (graphChoices estimate)
    .sizeT false [98, 99] fuel

/-- The join has no solution. -/
def onlySecond (comp : Component) : List (Entry (BitVec 64)) :=
  if comp.operandsVarIdsSet = [98] then [] else [⟨[0, 9], 2⟩, ⟨[0, 3], 1⟩]

theorem components_twoParts : components twoParts = [⟨[0, 1], [98]⟩, ⟨[2], [99, 100]⟩] := by decide

theorem findsParts_twoParts {estimate : DirectedLabelledGraph → Nat}
    (h : ∀ comp ∈ components twoParts, (comp.extractOperands twoPartsOperands).bind
      (subEntries [98, 99] (componentOperator (twoPartsOperator estimate 6) twoParts) comp) =
        some (onlySecond comp)) :
    FindsParts [98, 99] (twoPartsOperator estimate 6) twoParts twoPartsOperands onlySecond := by
  refine ⟨by decide, ?_, fun comp hm => Option.bind_eq_some_iff.mp (h comp hm), by decide⟩
  rw [components_twoParts]
  simp

/-- The second part is iterated, and nothing is found for the first one. -/
theorem optionalProduct_iff_two :
    (Ensures ((twoPartsOperator (·.operandsVarIdsSet.length) 7).generator twoParts twoPartsOperands
        (.makeFilled 2 1)) (fun res =>
          YieldsProduct false [98, 99] onlySecond twoParts (.makeFilled 2 1) res.1) ∧
      ((∀ comp ∈ components twoParts, comp.allResultDone [98, 99] = true) →
        Ensures ((twoPartsOperator (·.operandsVarIdsSet.length) 7).singleResult twoParts
          twoPartsOperands (.makeFilled 2 1)) (fun e' =>
            amount false e'.value = amount false (∑ᶠ key, product (Entry.makeFilled 2 1).key
              ((components twoParts).map (optionalPart [98, 99] onlySecond)) key)))) := by
  have hiterated : iterated (graphChoices (·.operandsVarIdsSet.length)) [98, 99] twoParts
      twoPartsOperands = some (⟨[2], [99, 100]⟩, [⟨[0, 1], [98]⟩]) := by decide
  refine (optionalProduct_iff (by decide) (by decide) (by decide)
    (findsParts_twoParts (by decide +kernel)) hiterated rfl).mpr ?_
  refine ⟨fun hunset => absurd hunset.2 (by decide), fun _ _ => ?_⟩
  have hmissing : materialisedAll AssocMap false [98, 99] onlySecond [⟨[0, 1], [98]⟩] =
      [[.makeFilled 2 1]] := by decide
  rw [hmissing]
  exact ⟨by decide, by simp [NoOverflow]⟩

theorem product_twoParts : product [0, 0]
    ((components twoParts).map (optionalPart [98, 99] onlySecond)) [0, 9] = 2 := by
  have hagree : AgreesOutside (writtenPoss ((components twoParts).map
      (optionalPart [98, 99] onlySecond))) ([0, 0] : List (BitVec 64)) [0, 9] := by
    refine ⟨rfl, fun pos hpos => ?_⟩
    rcases pos with _ | _ | pos
    · rfl
    · exact absurd (by decide) hpos
    · rfl
  have hfirst : optionalBag 2 (weight (onlySecond ⟨[0, 1], [98]⟩)) [0, 0] = 1 :=
    congrFun (if_pos fun _ => rfl) _
  have hweight : weight (onlySecond ⟨[2], [99, 100]⟩) [0, 9] = 2 := by decide
  have hsecond : optionalBag 2 (weight (onlySecond ⟨[2], [99, 100]⟩)) [0, 9] = 2 :=
    (congrFun (if_neg fun h => absurd (h [0, 9]) (by decide)) _).trans hweight
  rw [product, if_pos hagree, components_twoParts]
  show (optionalBag 2 (weight (onlySecond ⟨[0, 1], [98]⟩)) [0, 0] *
    (optionalBag 2 (weight (onlySecond ⟨[2], [99, 100]⟩)) [0, 9] * 1)) = 2
  rw [hfirst, hsecond]

/-- The first part is iterated, and the number of the tuples is lost. -/
theorem not_yieldsProduct :
    FindsParts [98, 99] (twoPartsOperator (2 * ·.size) 6) twoParts twoPartsOperands onlySecond ∧
    nextOp [98, 99] twoParts = .cartesian ∧ twoParts.optionalCartesian = true ∧
    ¬ Ensures ((twoPartsOperator (2 * ·.size) 7).generator twoParts twoPartsOperands (.makeFilled 2 1))
      (fun res => YieldsProduct false [98, 99] onlySecond twoParts (.makeFilled 2 1) res.1) := by
  refine ⟨findsParts_twoParts (by decide +kernel), by decide, by decide, ?_⟩
  rintro ⟨res, hres, hyields⟩
  have hrun : ((twoPartsOperator (2 * ·.size) 7).generator twoParts twoPartsOperands
      (.makeFilled 2 1)).map (fun res => weight res.1 [0, 9]) = some 1 := by decide +kernel
  rw [hres, Option.map_some, Option.some.injEq] at hrun
  have hproduct := hyields [0, 9]
  rw [hrun, show (Entry.makeFilled 2 1 : Entry (BitVec 64)).key = [0, 0] from rfl,
    product_twoParts] at hproduct
  exact absurd hproduct (by decide)

end Example

end CartesianOperator

end Query

end Hypertrie
