import Hypertrie.Einsum
import Hypertrie.Library.Permits
import Hypertrie.OptionalHashJoin
import Hypertrie.QueryCartesian
import Hypertrie.QueryGraph
import Hypertrie.QueryOperands

/-! The operators of a query and its evaluation. An operator is given a graph, the
operands of its vertices and the entry that all operators share, and calls the
operators of the graphs that are left. -/

namespace Hypertrie

open UnorderedMap

variable {M : Type → Type → Type} [UnorderedMap M] {K V D : Type}
variable [DecidableEq K] [DecidableEq V] [Inhabited K]

namespace Query

/-- `Operation`; it is not kept, so that `NoOp` is not needed. -/
inductive Operation where
  | join
  | leftJoin
  | union
  | cartesian
  | resolve
  | count
  | entryGenerator
  deriving DecidableEq

/-- The order of sorting and the floating point numbers of the cardinality estimation. -/
structure Choices (K V D : Type) where
  std : OrderedStdSort
  infinity : D
  calcCard : (isOptional : Bool) → DirectedLabelledGraph → List (ConstHypertrie K V) → Label → D
  estimate : List Label → DirectedLabelledGraph → List (ConstHypertrie K V) → D

/-- `get_sub_operator`, with `all_result_done` in the second member. -/
structure GraphOperator (K V : Type) where
  generator : DirectedLabelledGraph → List (ConstHypertrie K V) → Entry K →
    Option (List (Entry K) × Entry K)
  singleResult : DirectedLabelledGraph → List (ConstHypertrie K V) → Entry K → Option (Entry K)

def allResultDone (projVars : List Label) (g : DirectedLabelledGraph) : Bool :=
  projVars.all (!g.operandsVarIdsSet.contains ·)

/-- All entries for a graph; a single one counts if its value is not zero. -/
def GraphOperator.entries (projVars : List Label) (sub : GraphOperator K V)
    (g : DirectedLabelledGraph) (operands : List (ConstHypertrie K V)) (e : Entry K) :
    Option (List (Entry K) × Entry K) :=
  if allResultDone projVars g then
    (sub.singleResult g operands e).map fun e => (if e.value ≠ 0 then [e] else [], e)
  else sub.generator g operands e

/-- `get_odg_projected_vars_positions`. -/
def usedEntryPoss (projVars varIdsSet : List Label) : List Nat :=
  (projVars.dedup.filter (varIdsSet.contains ·)).filterMap (projectedVarPosition projVars)

theorem mem_usedEntryPoss {projVars varIdsSet : List Label} {pos : Nat} :
    pos ∈ usedEntryPoss projVars varIdsSet ↔
      ∃ l ∈ varIdsSet, projectedVarPosition projVars l = some pos := by
  simp only [usedEntryPoss, List.mem_filterMap, List.mem_filter, List.mem_dedup,
    List.contains_iff_mem]
  constructor
  · rintro ⟨l, ⟨-, hl⟩, hpos⟩
    exact ⟨l, hl, hpos⟩
  · rintro ⟨l, hl, hpos⟩
    exact ⟨l, ⟨List.mem_of_getElem? (projectedVarPosition_spec hpos), hl⟩, hpos⟩

/-- `clear_used_entry_poss`. -/
def clearEntry (projVars varIdsSet : List Label) (e : Entry K) : Entry K :=
  e.setKey ((usedEntryPoss projVars varIdsSet).foldl (fun key pos => key.set pos default) e.key)

/-- The operands at these positions, which are kept in one byte each. -/
def operandsAt (vs : List Nat) (operands : List (ConstHypertrie K V)) :
    Option (List (ConstHypertrie K V)) :=
  vs.mapM (fun v => operands[v % posTypeCount]?)

namespace CardinalityEstimation

/-- The loop over the variables, with the least cardinality so far and its variable. -/
def minCardLoop [LT D] [DecidableLT D] (skipped : Label → Bool) (calcCard : Label → D) :
    List Label → D × Label → Label
  | [], least => least.2
  | varId :: varIds, least =>
    if skipped varId then minCardLoop skipped calcCard varIds least
    else minCardLoop skipped calcCard varIds
      (if calcCard varId < least.1 then (calcCard varId, varId) else least)

/-- Lonely variables are not estimated unless they are projected. -/
def getMinCardLabel [LT D] [DecidableLT D] (c : Choices K V D) (isOptional : Bool)
    (projVars : List Label) (g : DirectedLabelledGraph) (operands : List (ConstHypertrie K V)) :
    Option Label :=
  match (if isOptional then g.nonOptionalVarIdsSet else g.operandsVarIdsSet) with
  | [] => none
  | [varId] => some varId
  | first :: varIds => some (minCardLoop
      (fun varId => g.lonelyVarIds.contains varId && !projVars.contains varId)
      (c.calcCard isOptional g operands) (first :: varIds) (c.infinity, first))

/-- The variable that is estimated to be the best is one of the set. -/
theorem minCardLoop_mem [LT D] [DecidableLT D] {skipped : Label → Bool}
    {calcCard : Label → D} {varIds all : List Label} {least : D × Label} (h : ∀ l ∈ varIds, l ∈ all)
    (hleast : least.2 ∈ all) : minCardLoop skipped calcCard varIds least ∈ all := by
  induction varIds generalizing least with
  | nil => exact hleast
  | cons varId varIds ih =>
    obtain ⟨hvarId, h⟩ := List.forall_mem_cons.mp h
    rw [minCardLoop]
    split
    · exact ih h hleast
    · apply ih h
      split
      · exact hvarId
      · exact hleast

end CardinalityEstimation

variable (t : HypertrieTrait K V) (ns : NodeStorage M K V) (c : Choices K V D) (arith : Arithmetic)
  (boolValued : Bool) (projVars : List Label) (sub : GraphOperator K V)

/-- Writes the key part to the position of a projected variable, which is kept in one byte. -/
def writeProjected (projVarPos : Option Nat) (keyPart : K) (e : Entry K) : Entry K :=
  match projVarPos with
  | some pos => e.setKey (e.key.set (pos % posTypeCount) keyPart)
  | none => e

namespace JoinOperator

/-- The loop over the hash join in the generator. -/
def generatorLoop (subOdg : DirectedLabelledGraph) (projVarPos : Option Nat) :
    List (K × List (ConstHypertrie K V)) → Entry K → Option (List (Entry K) × Entry K)
  | [], e => some ([], e)
  | (keyPart, subOperands) :: items, e => do
    let (out, e) ← sub.entries projVars subOdg subOperands (writeProjected projVarPos keyPart e)
    let (rest, e) ← generatorLoop subOdg projVarPos items e
    some (out ++ rest, e)

/-- The loop over the hash join in `single_result`. -/
def singleLoop (subOdg : DirectedLabelledGraph) :
    List (K × List (ConstHypertrie K V)) → Nat → Entry K → Option (Entry K)
  | [], value, e => some (e.setValue value)
  | (_, subOperands) :: items, value, e => do
    let e ← sub.singleResult subOdg subOperands e
    if e.value ≠ 0 then
      if boolValued then some e else singleLoop subOdg items (arith.add value e.value) e
    else singleLoop subOdg items value e

variable [LT D] [DecidableLT D]

def generator (odg : DirectedLabelledGraph) (operands : List (ConstHypertrie K V)) (e : Entry K) :
    Option (List (Entry K) × Entry K) := do
  let e := clearEntry projVars odg.operandsVarIdsSet e
  let evalVar ← CardinalityEstimation.getMinCardLabel c false projVars odg operands
  let items ← HashJoin.items t ns c.std.toStdSort ⟨operands, odg.varIdsPositionsInOperands evalVar⟩
  generatorLoop projVars sub (odg.removeVarId evalVar) (projectedVarPosition projVars evalVar) items e

def singleResult (odg : DirectedLabelledGraph) (operands : List (ConstHypertrie K V)) (e : Entry K) :
    Option (Entry K) := do
  let e := clearEntry projVars odg.operandsVarIdsSet e
  let evalVar ← CardinalityEstimation.getMinCardLabel c false projVars odg operands
  let items ← HashJoin.items t ns c.std.toStdSort ⟨operands, odg.varIdsPositionsInOperands evalVar⟩
  singleLoop arith boolValued sub (odg.removeVarId evalVar) items 0 e

end JoinOperator

namespace LeftJoinOperator

/-- `prune_empty`: scalars are not passed on. -/
def pruneEmpty (odg : DirectedLabelledGraph) (operands : List (ConstHypertrie K V)) :
    Option (DirectedLabelledGraph × List (ConstHypertrie K V)) := do
  let emptySubOps := (List.range operands.length).filter (fun pos => operands[pos]?.any (·.empty))
  let kept ← odg.prunedVertices (emptySubOps.map (BitVec.ofNat 8))
  let prunedOperands ← operandsAt kept operands
  some (odg.subgraph kept, prunedOperands.filter (0 < ·.depth))

/-- `non_opt_evaluated`. -/
def nonOptEvaluated (odg : DirectedLabelledGraph) : Bool := odg.nonOptionalVarIdsSet.length ≤ 1

/-- What is yielded for a key part: without a result, the entry itself if that is allowed. -/
def yielded (evaluated : Bool) (subOdg : DirectedLabelledGraph)
    (subOperands : List (ConstHypertrie K V)) (e : Entry K) : Option (List (Entry K) × Entry K) :=
  if allResultDone projVars subOdg then do
    let e ← sub.singleResult subOdg subOperands e
    if e.value ≠ 0 then some ([e], e)
    else if evaluated then some ([e.setValue 1], e.setValue 1)
    else some ([], e)
  else do
    let (out, e) ← sub.generator subOdg subOperands e
    if out.isEmpty && evaluated then some ([e.setValue 1], e.setValue 1) else some (out, e)

/-- The loop over the hash join in the generator. -/
def generatorLoop (odg : DirectedLabelledGraph) (evalVar : Label) :
    List (K × List (ConstHypertrie K V)) → Entry K → Option (List (Entry K) × Entry K)
  | [], e => some ([], e)
  | (keyPart, subOperands) :: items, e => do
    let e := writeProjected (projectedVarPosition projVars evalVar) keyPart e
    let (prunedOdg, prunedSubOperands) ← pruneEmpty odg subOperands
    let (out, e) ← yielded projVars sub (nonOptEvaluated odg) (prunedOdg.removeVarId evalVar)
      prunedSubOperands e
    let e := (clearEntry projVars odg.operandsVarIdsSet e).setValue 1
    let (rest, e) ← generatorLoop odg evalVar items e
    some (out ++ rest, e)

/-- The loop over the hash join in `single_result`. It passes on what has not been pruned. -/
def singleLoop (odg : DirectedLabelledGraph) (evalVar : Label) :
    List (K × List (ConstHypertrie K V)) → Nat → Entry K → Option (Entry K)
  | [], value, e =>
    some (e.setValue (if e.value = 0 ∧ nonOptEvaluated odg = true then 1 else value))
  | (_, subOperands) :: items, value, e => do
    let (prunedOdg, _) ← pruneEmpty odg subOperands
    let e ← sub.singleResult (prunedOdg.removeVarId evalVar) subOperands e
    if boolValued then some e else singleLoop odg evalVar items (arith.add value e.value) e

/-- The hash join with the operands of the ISC as the ones that are not optional. -/
def hashJoin (odg : DirectedLabelledGraph) (operands : List (ConstHypertrie K V)) (evalVar : Label) :
    OptionalHashJoin K V :=
  ⟨operands, odg.varIdsPositionsInOperands evalVar,
    odg.iscOperands.map fun v => ⟨v % posTypeCount, Nat.mod_lt v (by decide)⟩⟩

variable [LT D] [DecidableLT D]

def generator (odg : DirectedLabelledGraph) (operands : List (ConstHypertrie K V)) (e : Entry K) :
    Option (List (Entry K) × Entry K) := do
  let e := clearEntry projVars odg.operandsVarIdsSet e
  let evalVar ← CardinalityEstimation.getMinCardLabel c true projVars odg operands
  let items ← OptionalHashJoin.items t ns c.std (hashJoin odg operands evalVar)
  generatorLoop projVars sub odg evalVar items e

/-- The variable is the first one of the first operand of the ISC here. -/
def singleResult (odg : DirectedLabelledGraph) (operands : List (ConstHypertrie K V)) (e : Entry K) :
    Option (Entry K) := do
  let e := clearEntry projVars odg.operandsVarIdsSet e
  let front ← odg.iscOperands.head?
  let evalVar ← (odg.operandVarIds front).head?
  let items ← OptionalHashJoin.items t ns c.std (hashJoin odg operands evalVar)
  singleLoop arith boolValued sub odg evalVar items 0 e

end LeftJoinOperator

namespace ResolveOperator

/-- Writes the parts of a key to the positions of their variables, which must be projected. -/
def writeParts : List Label → List K → List K → Option (List K)
  | varId :: vars, part :: parts, key => do
    let pos ← projectedVarPosition projVars varId
    writeParts vars parts (key.set pos part)
  | _, [], key => some key
  | [], _ :: _, _ => none

/-- The loop over the entries of the operand. -/
def generatorLoop (operandVars : List Label) :
    List (SingleEntry K V) → Entry K → Option (List (Entry K) × Entry K)
  | [], e => some ([], e)
  | entry :: entries, e => do
    let key ← writeParts projVars operandVars entry.key e.key
    let (rest, last) ← generatorLoop operandVars entries ⟨key, 1⟩
    some (⟨key, 1⟩ :: rest, last)

def generator (odg : DirectedLabelledGraph) (operands : List (ConstHypertrie K V)) (e : Entry K) :
    Option (List (Entry K) × Entry K) := do
  let operand ← operands.head?
  let entries ← operand.entries t ns
  generatorLoop projVars (odg.operandVarIds 0) entries (clearEntry projVars odg.operandsVarIdsSet e)

/-- Should never be scheduled. -/
def singleResult (e : Entry K) : Option (Entry K) := some e

end ResolveOperator

namespace CountOperator

/-- Only one operand must be left. -/
def generator (e : Entry K) : Option (List (Entry K) × Entry K) := some ([e], e)

/-- The same as in einsum. -/
def singleResult (operands : List (ConstHypertrie K V)) (e : Entry K) : Option (Entry K) :=
  Hypertrie.CountOperator.singleResult t ns boolValued operands e

end CountOperator

namespace EntryGeneratorOperator

/-- Must not be used. -/
def generator (e : Entry K) : Option (List (Entry K) × Entry K) := some ([e], e)

def singleResult (e : Entry K) : Option (Entry K) := some (e.setValue 1)

end EntryGeneratorOperator

namespace UnionOperator

/-- The components with their operands. -/
def initUnion (odg : DirectedLabelledGraph) (operands : List (ConstHypertrie K V)) :
    Option (List (DirectedLabelledGraph × List (ConstHypertrie K V))) :=
  odg.unionComponents.mapM (fun vs => (operandsAt vs operands).map (odg.subgraph vs, ·))

/-- The loop over the components, after each of which its part of the entry is cleared. -/
def generatorLoop : List (DirectedLabelledGraph × List (ConstHypertrie K V)) → Entry K →
    Option (List (Entry K) × Entry K)
  | [], e => some ([], e)
  | (comp, subOperands) :: comps, e => do
    let (out, e) ← sub.entries projVars comp subOperands e
    let (rest, e) ← generatorLoop comps (clearEntry projVars comp.operandsVarIdsSet e)
    some (out ++ rest, e)

def generator (odg : DirectedLabelledGraph) (operands : List (ConstHypertrie K V)) (e : Entry K) :
    Option (List (Entry K) × Entry K) := do
  let comps ← initUnion odg operands
  generatorLoop projVars sub comps (clearEntry projVars odg.operandsVarIdsSet e)

/-- The loop over the components for one result. -/
def singleLoop : List (DirectedLabelledGraph × List (ConstHypertrie K V)) → Nat → Entry K →
    Option (Entry K)
  | [], value, e => some (e.setValue value)
  | (comp, subOperands) :: comps, value, e => do
    let e ← sub.singleResult comp subOperands e
    if e.value ≠ 0 then
      if boolValued then some e else singleLoop comps (arith.add value e.value) e
    else singleLoop comps value e

def singleResult (odg : DirectedLabelledGraph) (operands : List (ConstHypertrie K V)) (e : Entry K) :
    Option (Entry K) := do
  let comps ← initUnion odg operands
  singleLoop arith boolValued sub comps 0 (clearEntry projVars odg.operandsVarIdsSet e)

end UnionOperator

namespace CartesianOperator

/-- The component with these vertices. -/
def component (odg : DirectedLabelledGraph) (vs : List Nat) : Component :=
  ⟨vs.map (BitVec.ofNat 8), (odg.subgraph vs).operandsVarIdsSet⟩

/-- The graph of a component. -/
def componentGraph (odg : DirectedLabelledGraph) (comp : Component) : DirectedLabelledGraph :=
  odg.subgraph (comp.operandsOriginalPositions.map BitVec.toNat)

/-- The operators of the components. Each is given an entry of its own. -/
def componentOperator (odg : DirectedLabelledGraph) : SubOperator K (ConstHypertrie K V) where
  generator comp operands e := (sub.generator (componentGraph odg comp) operands e).map Prod.fst
  singleResult comp operands e := sub.singleResult (componentGraph odg comp) operands e

variable [Zero D] [LT D] [DecidableLT D]

/-- The part that is iterated with its operands, and the products of the others. The inner `none`
says that a component without solutions has ended it. -/
def prepare (isOptional : Bool) (odg : DirectedLabelledGraph) (operands : List (ConstHypertrie K V))
    (e : Entry K) : Option (Component × List (ConstHypertrie K V) × Option (FullCartesianResult K)) := do
  let comps := odg.cartesianComponents.map (component odg)
  let (subOperandss, resultPoss, iteratedPos) ← initCartesian projVars
    (fun comp operands => c.estimate projVars (componentGraph odg comp) operands) comps operands
  let (comp, subOperands) ← (comps.zip subOperandss)[iteratedPos]?
  let subResults ← getSubResults M arith boolValued isOptional projVars (componentOperator sub odg)
      ((comps.zip subOperandss).eraseIdx iteratedPos)
  some (comp, subOperands, subResults.map fun subResults =>
    Version.query.fullCartesianResult e.key.length subResults resultPoss iteratedPos)

/-- The generator for a graph: that for products, also where components share variables. -/
def graphGenerator (isOptional : Bool) (odg : DirectedLabelledGraph)
    (operands : List (ConstHypertrie K V)) (e : Entry K) : Option (List (Entry K) × Entry K) := do
  let e := clearEntry projVars odg.operandsVarIdsSet e
  let (comp, subOperands, calculated) ← prepare (M := M) c arith boolValued projVars sub isOptional odg
    operands e
  match calculated with
  | none => some ([], e)
  | some calculated =>
    if comp.allResultDone projVars then
      single arith boolValued isOptional projVars (componentOperator sub odg) comp subOperands calculated e
    else
      streamed arith boolValued isOptional projVars (componentOperator sub odg) comp subOperands
        calculated e

def graphSingleResult (isOptional : Bool) (odg : DirectedLabelledGraph)
    (operands : List (ConstHypertrie K V)) (e : Entry K) : Option (Entry K) := do
  let e := clearEntry projVars odg.operandsVarIdsSet e
  let (comp, subOperands, calculated) ← prepare (M := M) c arith boolValued projVars sub isOptional odg
    operands e
  match calculated with
  | none => some (e.setValue 0)
  | some calculated =>
    singleProduct arith boolValued isOptional projVars (componentOperator sub odg) comp subOperands
      calculated e

theorem componentGraph_component {g : DirectedLabelledGraph} {vs : List Nat}
    (h : ∀ v ∈ vs, v < posTypeCount) :
    componentGraph g (component g vs) = g.subgraph vs := by
  rw [componentGraph, component, OperandDependencyGraph.map_toNat_ofNat h]

section Prepared

variable {odg : DirectedLabelledGraph} {operands : List (ConstHypertrie K V)}
  {subOperandss : List (List (ConstHypertrie K V))}

omit [DecidableEq V] in
/-- When the operands of all components are there, one component is iterated and the others are
evaluated before it. -/
theorem prepare_eq_map (c : Choices K V D) (projVars : List Label)
    (hne : odg.cartesianComponents ≠ [])
    (hextract : (odg.cartesianComponents.map (component odg)).mapM
      (Component.extractOperands operands) = some subOperandss) :
    ∃ pos part, initCartesian projVars
        (fun comp operands => c.estimate projVars (componentGraph odg comp) operands)
        (odg.cartesianComponents.map (component odg)) operands = some (subOperandss,
          (odg.cartesianComponents.map (component odg)).map (Component.resultPoss projVars), pos) ∧
      ((odg.cartesianComponents.map (component odg)).zip subOperandss)[pos]? = some part ∧
      ∀ (arith : Arithmetic) (boolValued : Bool) (sub : GraphOperator K V) (isOptional : Bool) (e : Entry K),
        prepare (M := M) c arith boolValued projVars sub isOptional odg operands e =
          (getSubResults M arith boolValued isOptional projVars (componentOperator sub odg)
            (((odg.cartesianComponents.map (component odg)).zip subOperandss).eraseIdx pos)).map
              fun subResults => (part.1, part.2, subResults.map fun subResults => .new
                (subResults.map (Version.query.subResultVec e.key.length))
                ((((odg.cartesianComponents.map (component odg)).zip subOperandss).eraseIdx pos).map
                  fun part => part.1.resultPoss projVars)) := by
  let comps := odg.cartesianComponents.map (component odg)
  let estimate (comp : Component) (operands : List (ConstHypertrie K V)) : D :=
    c.estimate projVars (componentGraph odg comp) operands
  let pos := iteratedPos (List.zipWith estimate comps subOperandss)
  have hlength : subOperandss.length = comps.length :=
    (Permits.mapM (R := fun _ _ => True) (fun _ _ _ _ => trivial) _ hextract).length_eq.symm
  have hzip : (comps.zip subOperandss).length = comps.length := by
    rw [List.length_zip, hlength, Nat.min_self]
  have hpos : pos < (comps.zip subOperandss).length := by
    have hwith : (List.zipWith estimate comps subOperandss).length = comps.length := by
      rw [List.length_zipWith, hlength, Nat.min_self]
    rw [hzip, ← hwith]
    refine iteratedPos_lt (List.ne_nil_of_length_pos ?_)
    rw [hwith, List.length_map]
    exact List.length_pos_of_ne_nil hne
  have hinit : initCartesian projVars estimate comps operands =
      some (subOperandss, comps.map (Component.resultPoss projVars), pos) := by
    rw [initCartesian, hextract]
    rfl
  have hposs : (comps.map (Component.resultPoss projVars)).eraseIdx pos =
      ((comps.zip subOperandss).eraseIdx pos).map fun part => part.1.resultPoss projVars := by
    have hfst : (comps.zip subOperandss).map Prod.fst = comps := List.map_fst_zip hlength.ge
    conv_lhs => rw [← hfst, List.map_map]
    exact List.eraseIdx_map _ _ pos
  refine ⟨pos, (comps.zip subOperandss)[pos], hinit, List.getElem?_eq_getElem hpos,
    fun arith boolValued sub isOptional e => ?_⟩
  have hpart : (comps.zip subOperandss)[pos]? = some (comps.zip subOperandss)[pos] :=
    List.getElem?_eq_getElem hpos
  simp only [comps, estimate] at hinit hpart hposs
  rw [prepare]
  simp only [hinit, Option.bind_eq_bind, Option.bind_some, hpart, comps]
  cases getSubResults M arith boolValued isOptional projVars (componentOperator sub odg)
      (((odg.cartesianComponents.map (component odg)).zip subOperandss).eraseIdx pos) with
  | none => rfl
  | some subResults =>
    simp only [Option.bind_some, Option.map_some, Version.fullCartesianResult, hposs]

end Prepared

end CartesianOperator

/-- `next_op`. -/
def nextOp (odg : DirectedLabelledGraph) : Operation :=
  if odg.size = 0 then .entryGenerator
  else if odg.size = 1 then
    if odg.operandsVarIdsSet.length = (odg.operandVarIds 0).length then
      if odg.operandsVarIdsSet.all (!projVars.contains ·) then .count
      else if odg.operandsVarIdsSet.all (projVars.contains ·) then .resolve
      else .join
    else .join
  else if odg.unionComponents.length > 1 then .union
  else if odg.cartesianComponents.length > 1 then .cartesian
  else if odg.iscOperands.length < odg.size then .leftJoin
  else .join

section Evaluation

variable [Zero D] [LT D] [DecidableLT D]

/-- `get_sub_operator` for graphs with fewer vertices and variables than the fuel. -/
def getSubOperator : Nat → GraphOperator K V
  | 0 => ⟨fun _ _ _ => none, fun _ _ _ => none⟩
  | fuel + 1 =>
    let sub := getSubOperator fuel
    { generator := fun odg operands e => match nextOp projVars odg with
        | .join => JoinOperator.generator t ns c projVars sub odg operands e
        | .leftJoin => LeftJoinOperator.generator t ns c projVars sub odg operands e
        | .resolve => ResolveOperator.generator t ns projVars odg operands e
        | .count => CountOperator.generator e
        | .cartesian => CartesianOperator.graphGenerator (M := M) c arith boolValued projVars
            sub odg.optionalCartesian odg operands e
        | .union => UnionOperator.generator projVars sub odg operands e
        | .entryGenerator => EntryGeneratorOperator.generator e
      singleResult := fun odg operands e => match nextOp projVars odg with
        | .join => JoinOperator.singleResult t ns c arith boolValued projVars sub odg operands e
        | .leftJoin => LeftJoinOperator.singleResult t ns c arith boolValued projVars sub odg operands e
        | .resolve => ResolveOperator.singleResult e
        | .count => CountOperator.singleResult t ns boolValued operands e
        | .cartesian => CartesianOperator.graphSingleResult (M := M) c arith boolValued projVars
            sub odg.optionalCartesian odg operands e
        | .union => UnionOperator.singleResult arith boolValued projVars sub odg operands e
        | .entryGenerator => EntryGeneratorOperator.singleResult e }

/-- `prune_empty_operands`. -/
def pruneEmptyOperands (odg : DirectedLabelledGraph) (ops : List (ConstHypertrie K V)) :
    Option (DirectedLabelledGraph × List (ConstHypertrie K V)) := do
  let emptyOps ← Evaluation.emptyOps ops (ops.length + 1)
  if emptyOps = [] then some (odg, ops)
  else do
    let kept ← odg.prunedVertices emptyOps
    let newOps ← operandsAt kept ops
    some (odg.subgraph kept, newOps)

/-- `remove_rank0_operands`. -/
def removeRank0Operands (odg : DirectedLabelledGraph) (ops : List (ConstHypertrie K V)) :
    Option (DirectedLabelledGraph × List (ConstHypertrie K V)) :=
  if Evaluation.rank0Ops ops = [] then some (odg, ops)
  else (operandsAt (odg.withoutVertices (Evaluation.rank0Ops ops)) ops).map
    (odg.subgraph (odg.withoutVertices (Evaluation.rank0Ops ops)), ·)

/-- The operator of a graph, with enough fuel for it. -/
def operatorOf (odg : DirectedLabelledGraph) : GraphOperator K V :=
  getSubOperator (M := M) t ns c arith boolValued projVars (odg.operandsVarIdsSet.length + odg.size + 1)

/-- `evaluate`, the first time for a query; with the value type `bool` it is distinct. -/
def evaluate (hash : Entry K → BitVec 64) (odg : DirectedLabelledGraph)
    (ops : List (ConstHypertrie K V)) : Option (List (Entry K)) := do
  let (prunedOdg, prunedOps) ← pruneEmptyOperands odg ops
  if prunedOdg.size = 0 then some []
  else do
    let (odg, ops) ← removeRank0Operands prunedOdg prunedOps
    let sub := operatorOf (M := M) t ns c arith boolValued projVars odg
    let e := Entry.makeFilled projVars.length 1
    if allResultDone projVars odg then (sub.singleResult odg ops e).map ([·])
    else do
      let (out, _) ← sub.generator odg ops e
      some (if boolValued then distinctEntries hash [] out else out)

/-- `evaluate_ask`, the first time for a query. -/
def evaluateAsk (odg : DirectedLabelledGraph) (ops : List (ConstHypertrie K V)) : Option Bool := do
  let (prunedOdg, prunedOps) ← pruneEmptyOperands odg ops
  if prunedOdg.size = 0 then some false
  else do
    let (odg, ops) ← removeRank0Operands prunedOdg prunedOps
    let e ← (operatorOf (M := M) t ns c .exact true projVars odg).singleResult odg ops
      (Entry.makeFilled projVars.length 1)
    some (e.value ≠ 0)

end Evaluation

section Example

/-- Estimates that depend on the graph alone. -/
def graphChoices (estimate : DirectedLabelledGraph → Nat) : Choices (BitVec 64) Bool Nat where
  std := .insertion
  infinity := 0
  calcCard _ _ _ _ := 0
  estimate _ g _ := estimate g

/-- Hypertries of these depths with these keys. -/
def keyOperands (operands : List (Nat × List (List (BitVec 64)))) :
    List (ConstHypertrie (BitVec 64) Bool) :=
  operands.map fun operand => .ofNode defaultBoolTrait operand.1
    (defaultBoolTrait.ident operand.1 (operand.2.map fun key => ⟨key, true⟩).toFinset)

/-- The storage into which they are inserted one after the other. -/
def keyStorage (operands : List (Nat × List (List (BitVec 64)))) :
    NodeStorage AssocMap (BitVec 64) Bool :=
  (operands.foldlM (fun ns operand => (RawHypertrieContext.insert defaultBoolTrait ns operand.1
    (defaultBoolTrait.ident operand.1 ∅) (operand.2.map fun key => ⟨key, true⟩)).map Prod.snd)
      .empty).getD .empty

end Example

end Query

end Hypertrie
