import Hypertrie.FullCartesianResult
import Hypertrie.RawIterator
import Hypertrie.ResultKey
import Hypertrie.Subscript

/-! Evaluation of Einstein summation. The operators call each other with sub-problems
of fewer labels and share one result entry. A generator is the list it yields. -/

namespace Hypertrie

open UnorderedMap

variable {M : Type → Type → Type} [UnorderedMap M] {K V : Type}
variable [DecidableEq K] [DecidableEq V] [Inhabited K]

/-- What orders of iteration and the estimation of cardinalities decide. -/
structure EinsumChoices (K V : Type) where
  std : StdSort
  sets : SetBegin Label
  minCardLabel : List (ConstHypertrie K V) → Subscript → Label
  minCardLabel_mem : ∀ operands sc, sc.operandsLabelSet.Nonempty →
    minCardLabel operands sc ∈ sc.operandsLabelSet
  iteratedPos : List (List (ConstHypertrie K V) × Subscript) → Nat
  iteratedPos_lt : ∀ components, components ≠ [] → iteratedPos components < components.length

/-- `get_sub_operator`, with `all_result_done` in the second member. An entry that is passed is the
shared entry before and after. -/
structure SubOperator (K V : Type) where
  generator : Subscript → List (ConstHypertrie K V) → Entry K → Option (List (Entry K) × Entry K)
  singleResult : Subscript → List (ConstHypertrie K V) → Entry K → Option (Entry K)

/-- All entries of a sub-problem; a single one counts if its value is not zero. -/
def SubOperator.entries (sub : SubOperator K V) (sc : Subscript)
    (operands : List (ConstHypertrie K V)) (e : Entry K) : Option (List (Entry K) × Entry K) :=
  if sc.allResultDone then
    (sub.singleResult sc operands e).map fun e => (if e.value ≠ 0 then [e] else [], e)
  else sub.generator sc operands e

def clearUsedEntryPoss (e : Entry K) (sc : Subscript) : Entry K :=
  e.setKey (sc.usedResultPoss.foldl (fun key pos => key.set pos default) e.key)

variable (t : HypertrieTrait K V) (ns : NodeStorage M K V) (c : EinsumChoices K V)
  (boolValued : Bool) (sub : SubOperator K V)

namespace JoinOperator

/-- The loop over the hash join in the generator. -/
def generatorLoop (sc : Subscript) (label : Label) :
    List (K × List (ConstHypertrie K V)) → Entry K → Option (List (Entry K) × Entry K)
  | [], e => some ([], e)
  | (keyPart, subOperands) :: items, e => do
    let e := if sc.isResultLabel label then e.setKey (e.key.set (sc.labelPosInResult label) keyPart)
      else e
    let (out, e) ← sub.entries (sc.removeLabel label) subOperands e
    let (rest, e) ← generatorLoop sc label items e
    some (out ++ rest, e)

def generator (sc : Subscript) (operands : List (ConstHypertrie K V)) (e : Entry K) :
    Option (List (Entry K) × Entry K) := do
  let label := c.minCardLabel operands sc
  let items ← HashJoin.items t ns c.std ⟨operands, sc.labelPossInOperands label⟩
  generatorLoop sub sc label items (clearUsedEntryPoss e sc)

/-- The loop over the hash join in `single_result`. -/
def singleLoop (sc : Subscript) :
    List (K × List (ConstHypertrie K V)) → Nat → Entry K → Option (Entry K)
  | [], value, e => some (e.setValue value)
  | (_, subOperands) :: items, value, e => do
    let e ← sub.singleResult sc subOperands e
    if e.value ≠ 0 then
      if boolValued then some e else singleLoop sc items (value + e.value) e
    else singleLoop sc items value e

def singleResult (sc : Subscript) (operands : List (ConstHypertrie K V)) (e : Entry K) :
    Option (Entry K) := do
  let label := c.minCardLabel operands sc
  let items ← HashJoin.items t ns c.std ⟨operands, sc.labelPossInOperands label⟩
  singleLoop boolValued sub (sc.removeLabel label) items 0 (clearUsedEntryPoss e sc)

end JoinOperator

namespace ResolveOperator

/-- `operand2result_mapping_resolveType`. -/
def operand2resultMapping (sc : Subscript) : List Nat :=
  (sc.operands.headD []).map sc.labelPosInResult

/-- The loop over the entries of the operand. -/
def generatorLoop (sc : Subscript) : List (SingleEntry K V) → Entry K → List (Entry K) × Entry K
  | [], e => ([], e)
  | entry :: entries, e =>
    let e := (e.setKey (writeKey (operand2resultMapping sc) e.key entry.key)).setValue 1
    let (rest, last) := generatorLoop sc entries e
    (e :: rest, last)

def generator (sc : Subscript) (operands : List (ConstHypertrie K V)) (e : Entry K) :
    Option (List (Entry K) × Entry K) := do
  let operand ← operands.head?
  let entries ← operand.entries t ns
  some (generatorLoop sc entries (clearUsedEntryPoss e sc))

/-- Should never be scheduled. -/
def singleResult (e : Entry K) : Option (Entry K) := some e

end ResolveOperator

namespace CountOperator

/-- Must not be used. -/
def generator (e : Entry K) : Option (List (Entry K) × Entry K) := some ([e], e)

def singleResult (operands : List (ConstHypertrie K V)) (e : Entry K) : Option (Entry K) :=
  if boolValued then some (e.setValue 1)
  else do
    let operand ← operands.head?
    let size ← operand.size t ns
    some (e.setValue size)

end CountOperator

namespace EntryGeneratorOperator

/-- Must not be used. -/
def generator (e : Entry K) : Option (List (Entry K) × Entry K) :=
  some ([e.setValue 1], e.setValue 1)

def singleResult (e : Entry K) : Option (Entry K) := some (e.setValue 1)

end EntryGeneratorOperator

namespace CartesianOperator

/-- A component with its operands. -/
abbrev Component (K V : Type) := List (ConstHypertrie K V) × CartesianSubSubscript

/-- `extract_operands`. -/
def extractOperands (operands : List (ConstHypertrie K V)) (sub : CartesianSubSubscript) :
    Option (List (ConstHypertrie K V)) :=
  sub.originalOperandPoss.mapM (operands[·]?)

/-- `extract_suboperands`: the components and the position of the one that is iterated. -/
def extractSuboperands (sc : Subscript) (operands : List (ConstHypertrie K V)) :
    Option (List (Component K V) × Nat) := do
  let subSubscripts ← sc.cartesianSubSubscripts c.sets
  let subOperandss ← subSubscripts.mapM (extractOperands operands)
  let components := subOperandss.zip subSubscripts
  some (components, c.iteratedPos (components.map fun comp => (comp.1, comp.2.subscript)))

/-- The entries of a component, summed up by key in a hash map. -/
def subResult (out : List (Entry K)) : M (List K) Nat :=
  out.foldl (fun m e =>
    assign m e.key (if boolValued then 1 else (find m e.key).getD 0 + e.value)) empty

/-- The inner `none` says that a component is empty. -/
def getSubResults : List (Component K V) → Option (Option (List (List (Entry K))))
  | [] => some (some [])
  | (operands, comp) :: components => do
    let (out, _) ← sub.entries comp.subscript operands
      (Entry.makeFilled comp.subscript.result.length 1)
    let result : M (List K) Nat := subResult boolValued out
    if (entries result).isEmpty then some none
    else do
      let results ← getSubResults components
      some (results.map (((entries result).map fun e => ⟨e.1, e.2⟩) :: ·))

/-- One round of the innermost loop. A bool value is not set for an entry of a generator. -/
def productBody (setsValue : Bool) (poss : List Nat) (iterated : Entry K) (precalculated : Nat)
    (e : Entry K) : Entry K :=
  let e := e.setKey (writeKey poss e.key iterated.key)
  if setsValue then e.setValue (iterated.value * precalculated) else e

/-- The loop over the entries of the iterated component. -/
def iterate (setsValue : Bool) (poss : List Nat) (calculated : FullCartesianResult K) :
    List (Entry K) → Entry K → Option (List (Entry K) × Entry K)
  | [], e => some ([], e)
  | iterated :: iteratedOut, e => do
    let (out, e) ← calculated.forEach (· * ·) boolValued writeKey
      (productBody setsValue poss iterated) e
    let (rest, e) ← iterate setsValue poss calculated iteratedOut e
    some (out ++ rest, e)

/-- The products with the iterated component. -/
def products (comp : Component K V) (calculated : FullCartesianResult K) (e : Entry K) :
    Option (List (Entry K) × Entry K) := do
  let (out, _) ← sub.entries comp.2.subscript comp.1
    (Entry.makeFilled comp.2.subscript.result.length 1)
  iterate boolValued (!boolValued || comp.2.subscript.allResultDone) comp.2.originalResultPoss
    calculated out e

def generator (sc : Subscript) (operands : List (ConstHypertrie K V)) (e : Entry K) :
    Option (List (Entry K) × Entry K) := do
  let e := clearUsedEntryPoss e sc
  let (components, iteratedPos) ← extractSuboperands c sc operands
  let iterated ← components[iteratedPos]?
  let others := components.eraseIdx iteratedPos
  match ← getSubResults (M := M) boolValued sub others with
  | none => some ([], e)
  | some subResults =>
    products boolValued sub iterated
      (.new subResults (others.map fun comp => comp.2.originalResultPoss)) e

/-- The product with the single value of the iterated component. -/
def singleProduct (comp : Component K V) (calculated : FullCartesianResult K) (e : Entry K) :
    Option (Entry K) := do
  let iterated ← sub.singleResult comp.2.subscript comp.1
    (Entry.makeFilled comp.2.subscript.result.length 1)
  if boolValued then some (e.setValue iterated.value)
  else do
    let (calculated, key) ← calculated.restart (· * ·) boolValued writeKey e.key
    some ((e.setKey key).setValue (iterated.value * calculated.value))

def singleResult (sc : Subscript) (operands : List (ConstHypertrie K V)) (e : Entry K) :
    Option (Entry K) := do
  let e := clearUsedEntryPoss e sc
  let (components, iteratedPos) ← extractSuboperands c sc operands
  let iterated ← components[iteratedPos]?
  let others := components.eraseIdx iteratedPos
  match ← getSubResults (M := M) boolValued sub others with
  | none => some (e.setValue 0)
  | some subResults =>
    singleProduct boolValued sub iterated
      (.new subResults (others.map fun comp => comp.2.originalResultPoss)) e

end CartesianOperator

/-- `get_sub_operator` for sub-problems with fewer labels than the fuel. -/
def getSubOperator : Nat → SubOperator K V
  | 0 => ⟨fun _ _ _ => none, fun _ _ _ => none⟩
  | fuel + 1 =>
    let sub := getSubOperator fuel
    { generator := fun sc operands e => (sc.type c.sets).bind fun
        | .join => JoinOperator.generator t ns c sub sc operands e
        | .resolve => ResolveOperator.generator t ns sc operands e
        | .count => CountOperator.generator e
        | .cartesian => CartesianOperator.generator (M := M) c boolValued sub sc operands e
        | .entryGenerator => EntryGeneratorOperator.generator e
      singleResult := fun sc operands e => (sc.type c.sets).bind fun
        | .join => JoinOperator.singleResult t ns c boolValued sub sc operands e
        | .resolve => ResolveOperator.singleResult e
        | .count => CountOperator.singleResult t ns boolValued operands e
        | .cartesian => CartesianOperator.singleResult (M := M) c boolValued sub sc operands e
        | .entryGenerator => EntryGeneratorOperator.singleResult e }

/-- The entries whose hash has not been found before. -/
def distinctEntries (hash : Entry K → BitVec 64) : List (BitVec 64) → List (Entry K) → List (Entry K)
  | _, [] => []
  | found, e :: out =>
    if hash e ∈ found then distinctEntries hash found out
    else e :: distinctEntries hash (hash e :: found) out

/-- `einsum` with the value type `bool` or a number. -/
def einsum (hash : Entry K → BitVec 64) (sc : Subscript) (operands : List (ConstHypertrie K V)) :
    Option (List (Entry K)) := do
  let sub := getSubOperator t ns c boolValued (sc.operandsLabelSet.card + 1)
  let e := Entry.makeFilled sc.result.length 1
  if sc.allResultDone then do
    let e ← sub.singleResult sc operands e
    if e.value ≠ 0 then do
      let e ← sub.singleResult sc operands e
      some [e]
    else some []
  else do
    let (out, _) ← sub.generator sc operands e
    some (if boolValued then distinctEntries hash [] out else out)

end Hypertrie
