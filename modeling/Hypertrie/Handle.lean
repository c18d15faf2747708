import Hypertrie.ConstHypertrie
import Hypertrie.HandleCount
import Hypertrie.SetValue

/-! Handles of one context: what their special members and `set` do to the
storage, and that references are counted as long as no assignment overwrites a
handle that holds a node. -/

namespace Hypertrie

open UnorderedMap

variable {M : Type → Type → Type} [UnorderedMap M] {K V : Type}
variable [DecidableEq K] [DecidableEq V] [Inhabited K]

namespace ConstHypertrie

variable (t : HypertrieTrait K V) (ns : NodeStorage M K V)

/-- An empty hypertrie of the context. -/
def construct (depth : Nat) : ConstHypertrie K V := ⟨seed, .null, false, true, depth⟩

/-- A non-empty handle of positive depth holds a node unless its entry is stored in place. -/
def holdsNode (h : ConstHypertrie K V) : Bool :=
  !h.empty && h.depth != 0 && !(t.inPlaceNode h.depth && t.isSen h.nodeIdentifier)

/-- What the copy constructors and the copy assignment do after they have copied the members. -/
def acquire (h : ConstHypertrie K V) : Option (NodeStorage M K V) :=
  if h.holdsNode t then
    if h.contextless then none
    else RawHypertrieContext.incRefCount t ns h.depth h.nodeIdentifier
  else some ns

/-- The destructor. -/
def release (h : ConstHypertrie K V) : Option (NodeStorage M K V) :=
  if h.holdsNode t then
    if h.contextless then none
    else RawHypertrieContext.decrRefCount t ns h.depth h.nodeIdentifier
  else some ns

/-- `Hypertrie::set`; returns the old value, the new handle and the new storage. -/
def set (h : ConstHypertrie K V) (key : List K) (value : V) :
    Option (V × ConstHypertrie K V × NodeStorage M K V) :=
  if h.depth = 0 then
    (h.nodePtr.decodeDepth0Value t).map fun oldValue =>
      (oldValue,
        { h with
          nodePtr := .scalar value
          nodeIdentifier :=
            if value = t.zero then seed else t.encodeSingleEntry 0 (t.makeEntry [] value) },
        ns)
  else if h.contextless then none
  else
    (RawHypertrieContext.set t ns h.depth h.nodeIdentifier key value).map
      fun (oldValue, nodec, ns) =>
        (oldValue,
          { h with
            nodePtr := (ofNode t h.depth nodec).nodePtr
            nodeIdentifier := nodec },
          ns)

end ConstHypertrie

/-- A context and the handles that refer to it. Handles are named by their position. -/
structure World (M : Type → Type → Type) (K V : Type) where
  nodeStorage : NodeStorage M K V
  handles : List (ConstHypertrie K V)

/-- `copyConst` copies a const handle. Its second argument is the set of entries that handle
stands for, which no step reads. -/
inductive HandleOp (K V : Type) where
  | construct (depth : Nat)
  | copyConstruct (source : Nat)
  | copyConst (source : ConstHypertrie K V) (entries : Finset (SingleEntry K V))
  | copyAssign (target source : Nat)
  | moveConstruct (source : Nat)
  | moveAssign (target source : Nat)
  | set (target : Nat) (key : List K) (value : V)
  | destroy (target : Nat)

namespace World

variable (t : HypertrieTrait K V)

def empty : World M K V := ⟨NodeStorage.empty, []⟩

/-- `Hypertrie::set` on one of the handles; returns the old value as well. -/
def setHandle (w : World M K V) (target : Nat) (key : List K) (value : V) :
    Option (V × World M K V) := do
  let h ← w.handles[target]?
  let (oldValue, h, ns) ← h.set t w.nodeStorage key value
  some (oldValue, ⟨ns, w.handles.set target h⟩)

/-- The assignments do not give up what the target holds, and the copy assignment keeps its
`managed` flag. A handle that was moved from is an empty hypertrie of depth 0 without context. -/
def step (w : World M K V) : HandleOp K V → Option (World M K V)
  | .construct depth => some { w with handles := w.handles ++ [.construct depth] }
  | .copyConstruct source => do
    let h ← w.handles[source]?
    let ns ← h.acquire t w.nodeStorage
    some ⟨ns, w.handles ++ [h]⟩
  | .copyConst h _ => do
    let ns ← h.acquire t w.nodeStorage
    some ⟨ns, w.handles ++ [h]⟩
  | .copyAssign target source => do
    let old ← w.handles[target]?
    let h ← w.handles[source]?
    let ns ← h.acquire t w.nodeStorage
    some ⟨ns, w.handles.set target { h with managed := old.managed }⟩
  | .moveConstruct source => do
    let h ← w.handles[source]?
    some { w with handles := w.handles.set source (.new 0) ++ [h] }
  | .moveAssign target source => do
    let _ ← w.handles[target]?
    let h ← w.handles[source]?
    some { w with handles := (w.handles.set target h).set source (.new 0) }
  | .set target key value => (w.setHandle t target key value).map Prod.snd
  | .destroy target => do
    let h ← w.handles[target]?
    let ns ← h.release t w.nodeStorage
    some ⟨ns, w.handles.eraseIdx target⟩

end World

end Hypertrie
