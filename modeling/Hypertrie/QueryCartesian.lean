import Hypertrie.EinsumCartesian
import Hypertrie.Library.Bag
import Hypertrie.OperandDependencyGraph
import Hypertrie.ProductVisits

/-! Cartesian products in a query. The entries of all operators have a place for each
projected variable; an operator writes to the places of the variables of its graph. -/

namespace Hypertrie

open Weighted UnorderedMap

namespace Query

/-- How values are added and multiplied. -/
structure Arithmetic where
  add : Nat → Nat → Nat
  mul : Nat → Nat → Nat

/-- Natural numbers, of any size. -/
abbrev Arithmetic.exact : Arithmetic := ⟨(· + ·), (· * ·)⟩

/-- `std::size_t`. -/
abbrev Arithmetic.sizeT : Arithmetic :=
  ⟨fun a b => (a + b) % 2 ^ 64, FactorExchange.mulMod (2 ^ 64)⟩

variable {K O D : Type}

/-- `projected_var_position`. A variable that is projected twice has the last place. -/
def projectedVarPosition (projVars : List Label) (l : Label) : Option Nat :=
  (projVars.zipIdx.reverse.find? (·.1 = l)).map Prod.snd

/-- What a component of a graph is to the operators: where its operands are in the graph and
which variables they have. -/
structure Component where
  operandsOriginalPositions : List Vertex
  operandsVarIdsSet : List Label
  deriving DecidableEq

namespace Component

/-- `all_result_done`. -/
def allResultDone (projVars : List Label) (comp : Component) : Bool :=
  projVars.all (!comp.operandsVarIdsSet.contains ·)

/-- The positions of the result that the component modifies. -/
def resultPoss (projVars : List Label) (comp : Component) : List Nat :=
  comp.operandsVarIdsSet.filterMap (projectedVarPosition projVars)

/-- `extract_operands`. -/
def extractOperands (operands : List O) (comp : Component) : Option (List O) :=
  comp.operandsOriginalPositions.mapM (operands[·.toNat]?)

end Component

/-- `get_sub_operator`: what an operator of a component yields for an entry, or makes of it. -/
structure SubOperator (K O : Type) where
  generator : Component → List O → Entry K → Option (List (Entry K))
  singleResult : Component → List O → Entry K → Option (Entry K)

namespace CartesianOperator

/-- The component of the first largest estimate is iterated, or the first one if there is none. -/
def iteratedPos [Zero D] [LT D] [DecidableLT D] (estimates : List D) : Nat :=
  (estimates.zipIdx.foldl (fun largest e => if largest.1 < e.1 then e else largest) (0, 0)).2

/-- `init_cartesian`: operands, result positions and the iterated component. -/
def initCartesian [Zero D] [LT D] [DecidableLT D] (projVars : List Label)
    (estimate : Component → List O → D) (comps : List Component) (operands : List O) :
    Option (List (List O) × List (List Nat) × Nat) := do
  let subOperandss ← comps.mapM (Component.extractOperands operands)
  some (subOperandss, comps.map (Component.resultPoss projVars),
    iteratedPos (List.zipWith estimate comps subOperandss))

variable [DecidableEq K] [Inhabited K]
variable (M : Type → Type → Type) [UnorderedMap M] (arith : Arithmetic) (boolValued isOptional : Bool)
variable (projVars : List Label) (sub : SubOperator K O)

/-- An entry with unbound keys, for a component. -/
def subEntryArg : Entry K := .makeFilled projVars.length 1

/-- The entries of a component, summed up by key in a hash map. -/
def collect (out : List (Entry K)) : M (List K) Nat :=
  out.foldl (fun m e =>
    assign m e.key (if boolValued then 1 else arith.add ((find m e.key).getD 0) e.value)) empty

/-- The result of a component in a hash map. -/
def subResult (comp : Component) (subOperands : List O) : Option (M (List K) Nat) :=
  if comp.allResultDone projVars then do
    let subEntry ← sub.singleResult comp subOperands (subEntryArg projVars)
    some (if subEntry.value ≠ 0 then assign empty subEntry.key subEntry.value else empty)
  else do
    let out ← sub.generator comp subOperands (subEntryArg projVars)
    some (collect M arith boolValued out)

/-- `get_sub_results` for the components that are not iterated. The inner `none` says that a
component without solutions has ended it. -/
def getSubResults : List (Component × List O) → Option (Option (List (List (Entry K))))
  | [] => some (some [])
  | (comp, subOperands) :: comps => do
    let result ← subResult M arith boolValued projVars sub comp subOperands
    if !isOptional && (entries result).isEmpty then some none
    else do
      let results ← getSubResults comps
      some (results.map (((entries result).map fun e => ⟨e.1, e.2⟩) :: ·))

/-- One round of the loop over the products with an entry of the iterated component. -/
def productBody (poss : List Nat) (iterated : Entry K) (precalculated : Nat) (e : Entry K) : Entry K :=
  (e.setKey (copyKey poss e.key iterated.key)).setValue (arith.mul iterated.value precalculated)

/-- The loop over the entries of the iterated component. -/
def iterate (poss : List Nat) (calculated : FullCartesianResult K) :
    List (Entry K) → Entry K → Option (List (Entry K) × Entry K)
  | [], e => some ([], e)
  | iterated :: iteratedOut, e => do
    let (out, e) ← calculated.forEach arith.mul boolValued copyKey (productBody arith poss iterated) e
    let (rest, e) ← iterate poss calculated iteratedOut e
    some (out ++ rest, e)

/-- The products with the entries of the iterated component. Without any, optional components are
still yielded, with the value that the entry has. -/
def streamed (comp : Component) (subOperands : List O) (calculated : FullCartesianResult K)
    (e : Entry K) : Option (List (Entry K) × Entry K) := do
  let iteratedOut ← sub.generator comp subOperands (subEntryArg projVars)
  let (out, e) ← iterate arith boolValued (comp.resultPoss projVars) calculated iteratedOut e
  if isOptional && iteratedOut.isEmpty then
    calculated.forEach arith.mul boolValued copyKey (fun _ e => e) e
  else some (out, e)

/-- The products with the single entry of an iterated component without projected variables. -/
def single (comp : Component) (subOperands : List O) (calculated : FullCartesianResult K)
    (e : Entry K) : Option (List (Entry K) × Entry K) := do
  let iterated ← sub.singleResult comp subOperands (subEntryArg projVars)
  if iterated.value ≠ 0 then
    calculated.forEach arith.mul boolValued copyKey
      (productBody arith (comp.resultPoss projVars) iterated) e
  else if isOptional then
    calculated.forEach arith.mul boolValued copyKey (fun precalculated e => e.setValue precalculated) e
  else some ([], e)

/-- The product with the single entry of the iterated component, for one result. -/
def singleProduct (comp : Component) (subOperands : List O) (calculated : FullCartesianResult K)
    (e : Entry K) : Option (Entry K) := do
  let iterated ← sub.singleResult comp subOperands (subEntryArg projVars)
  if boolValued then some (e.setValue (if isOptional then 1 else iterated.value))
  else do
    let (calculated, key) ← calculated.restart arith.mul boolValued copyKey e.key
    some ((e.setKey key).setValue
      (if isOptional && iterated.value = 0 then calculated.value
        else arith.mul iterated.value calculated.value))

end CartesianOperator

section Positions

variable {projVars : List Label} {l l' : Label} {pos : Nat} {comp comp' : Component}

theorem projectedVarPosition_spec (h : projectedVarPosition projVars l = some pos) :
    projVars[pos]? = some l := by
  obtain ⟨⟨l', pos'⟩, hfind, rfl⟩ := Option.map_eq_some_iff.mp h
  have hm := List.mem_zipIdx_iff_getElem?.mp (List.mem_reverse.mp (List.mem_of_find?_eq_some hfind))
  have hl : l' = l := by simpa using List.find?_some hfind
  rw [← hl]
  exact hm

theorem exists_projectedVarPosition (h : l ∈ projVars) :
    ∃ pos, projectedVarPosition projVars l = some pos := by
  obtain ⟨pos, hpos⟩ := List.getElem?_of_mem h
  have hfind : (projVars.zipIdx.reverse.find? (·.1 = l)).isSome := by
    rw [List.find?_isSome]
    refine ⟨(l, pos), List.mem_reverse.mpr (List.mem_zipIdx_iff_getElem?.mpr hpos), by simp⟩
  obtain ⟨found, hfound⟩ := Option.isSome_iff_exists.mp hfind
  exact ⟨found.2, by rw [projectedVarPosition, hfound]; rfl⟩

namespace Component

theorem mem_resultPoss : pos ∈ comp.resultPoss projVars ↔
    ∃ l ∈ comp.operandsVarIdsSet, projectedVarPosition projVars l = some pos :=
  List.mem_filterMap

theorem lt_of_mem_resultPoss (h : pos ∈ comp.resultPoss projVars) : pos < projVars.length := by
  obtain ⟨l, -, hpos⟩ := mem_resultPoss.mp h
  exact (List.getElem?_eq_some_iff.mp (projectedVarPosition_spec hpos)).1

theorem disjoint_resultPoss (h : comp.operandsVarIdsSet.Disjoint comp'.operandsVarIdsSet) :
    (comp.resultPoss projVars).Disjoint (comp'.resultPoss projVars) := by
  intro pos hpos hpos'
  obtain ⟨l, hl, hpos⟩ := mem_resultPoss.mp hpos
  obtain ⟨l', hl', hpos'⟩ := mem_resultPoss.mp hpos'
  have heq := (projectedVarPosition_spec hpos).symm.trans (projectedVarPosition_spec hpos')
  rw [Option.some.injEq] at heq
  exact h (heq ▸ hl) hl'

theorem allResultDone_iff : comp.allResultDone projVars = true ↔
    ∀ l ∈ comp.operandsVarIdsSet, l ∉ projVars := by
  simp only [allResultDone, List.all_eq_true, Bool.not_eq_true', ← Bool.not_eq_true,
    List.contains_iff_mem]
  exact ⟨fun h l hl hm => h l hm hl, fun h l hm hl => h l hl hm⟩

theorem resultPoss_of_done (h : comp.allResultDone projVars = true) :
    comp.resultPoss projVars = [] := by
  refine List.eq_nil_iff_forall_not_mem.mpr fun pos hpos => ?_
  obtain ⟨l, hl, hpos⟩ := mem_resultPoss.mp hpos
  exact allResultDone_iff.mp h l hl (List.mem_of_getElem? (projectedVarPosition_spec hpos))

end Component

theorem getElem?_clear [Inhabited K] (poss : List Nat) (key : List K) (pos : Nat) :
    (poss.foldl (fun key pos => key.set pos default) key)[pos]? =
      if pos ∈ poss then key[pos]?.map fun _ => default else key[pos]? := by
  induction poss generalizing key with
  | nil => simp
  | cons pos' poss ih =>
    rw [List.foldl_cons, ih]
    by_cases hpos : pos' = pos
    · subst hpos
      by_cases hm : pos' ∈ poss <;> by_cases hlt : pos' < key.length <;> simp [hm, hlt]
    · simp [hpos, Ne.symm hpos]

end Positions

namespace CartesianOperator

theorem iteratedPos_lt [Zero D] [LT D] [DecidableLT D] {estimates : List D} (h : estimates ≠ []) :
    iteratedPos estimates < estimates.length := by
  have hfold (l : List (D × Nat)) (largest : D × Nat) (hlargest : largest.2 < estimates.length)
      (hl : ∀ x ∈ l, x.2 < estimates.length) :
      (l.foldl (fun largest x => if largest.1 < x.1 then x else largest) largest).2 <
        estimates.length := by
    induction l generalizing largest with
    | nil => exact hlargest
    | cons x l ih =>
      obtain ⟨hx, hl⟩ := List.forall_mem_cons.mp hl
      refine ih _ ?_ hl
      show (if largest.1 < x.1 then x else largest).2 < estimates.length
      split
      · exact hx
      · exact hlargest
  refine hfold _ _ (List.length_pos_of_ne_nil h) fun x hx => ?_
  exact (List.getElem?_eq_some_iff.mp (List.mem_zipIdx_iff_getElem?.mp hx)).1

theorem iterate_singleton [Inhabited K] (arith : Arithmetic) (boolValued : Bool) (poss : List Nat)
    (calculated : FullCartesianResult K) (iterated e : Entry K) :
    iterate arith boolValued poss calculated [iterated] e =
      calculated.forEach arith.mul boolValued copyKey (productBody arith poss iterated) e := by
  rw [iterate]
  cases calculated.forEach arith.mul boolValued copyKey (productBody arith poss iterated) e with
  | none => rfl
  | some res => simp [iterate]

end CartesianOperator

end Query

end Hypertrie
