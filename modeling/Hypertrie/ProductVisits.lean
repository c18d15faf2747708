import Hypertrie.FullCartesianResult
import Hypertrie.ResultKey

/-! Loops over a product, in the version of einsum and in the version of query.
The caller may write to the target entry between two rounds. -/

namespace Hypertrie

open Weighted Odometer FactorExchange

variable {K : Type} [Inhabited K]

/-- `updateEntryKey` of query, where a sub-result has keys of full length. -/
def copyKey (poss : List Nat) (sink source : List K) : List K :=
  poss.foldl (fun sink pos => sink.set pos (source.getD pos default)) sink

/-- The two classes of the name `FullCartesianResult`. -/
inductive Version where
  | einsum
  | query
  deriving DecidableEq, Repr

namespace Version

def updateEntryKey : Version → List Nat → List K → List K → List K
  | einsum => writeKey
  | query => copyKey

/-- What a sub-result is copied to. -/
def subResultVec : Version → Nat → List (Entry K) → List (Entry K)
  | einsum, _, subResult => subResult
  | query, size, subResult => if subResult.isEmpty then [Entry.makeFilled size 1] else subResult

/-- The constructor. There are result positions for the excluded component, too. -/
def fullCartesianResult (version : Version) (size : Nat) (subResults : List (List (Entry K)))
    (resultPoss : List (List Nat)) (excludedPos : Nat) : FullCartesianResult K :=
  .new (subResults.map (version.subResultVec size)) (resultPoss.eraseIdx excludedPos)

/-- The key has a part for each of these positions of a target key. -/
def Fits (size : Nat) (poss : List Nat) (source : List K) : Version → Prop
  | einsum => source.length = poss.length ∧ poss.Nodup ∧ ∀ pos ∈ poss, pos < size
  | query => source.length = size ∧ ∀ pos ∈ poss, pos < size

/-- The target key holds the parts of the other key at these positions. -/
def HoldsParts (poss : List Nat) (key source : List K) : Version → Prop
  | einsum => ∀ i pos : Nat, poss[i]? = some pos → key[pos]? = source[i]?
  | query => ∀ pos ∈ poss, key[pos]? = source[pos]?

end Version

omit [Inhabited K] in
theorem length_writeKey (poss : List Nat) (sink source : List K) :
    (writeKey poss sink source).length = sink.length := by
  induction poss generalizing sink source with
  | nil => rfl
  | cons pos poss ih =>
    cases source with
    | nil => rfl
    | cons part source => exact (ih (sink.set pos part) source).trans List.length_set

theorem length_copyKey (poss : List Nat) (sink source : List K) :
    (copyKey poss sink source).length = sink.length := by
  induction poss generalizing sink with
  | nil => rfl
  | cons pos poss ih => exact (ih _).trans List.length_set

omit [Inhabited K] in
theorem getElem?_writeKey_of_notMem {poss : List Nat} {pos : Nat} (h : pos ∉ poss)
    (sink source : List K) : (writeKey poss sink source)[pos]? = sink[pos]? := by
  induction poss generalizing sink source with
  | nil => rfl
  | cons pos' poss ih =>
    have hne : pos' ≠ pos := fun heq => h (heq ▸ List.mem_cons_self)
    have hnot : pos ∉ poss := fun hm => h (List.mem_cons_of_mem _ hm)
    cases source with
    | nil => rfl
    | cons part source =>
      exact (ih hnot (sink.set pos' part) source).trans (List.getElem?_set_ne hne)

theorem getElem?_copyKey_of_notMem {poss : List Nat} {pos : Nat} (h : pos ∉ poss)
    (sink source : List K) : (copyKey poss sink source)[pos]? = sink[pos]? := by
  induction poss generalizing sink with
  | nil => rfl
  | cons pos' poss ih =>
    have hne : pos' ≠ pos := fun heq => h (heq ▸ List.mem_cons_self)
    exact (ih (fun hm => h (List.mem_cons_of_mem _ hm)) _).trans (List.getElem?_set_ne hne)

omit [Inhabited K] in
theorem getElem?_writeKey {poss : List Nat} {sink source : List K} (hn : poss.Nodup)
    (hl : source.length = poss.length) (hlt : ∀ pos ∈ poss, pos < sink.length) {i pos : Nat}
    (h : poss[i]? = some pos) : (writeKey poss sink source)[pos]? = source[i]? := by
  induction poss generalizing sink source i with
  | nil => cases h
  | cons pos' poss ih =>
    obtain ⟨hnot, hn⟩ := List.nodup_cons.mp hn
    cases source with
    | nil => cases hl
    | cons part source =>
      cases i with
      | zero =>
        obtain rfl := Option.some.inj h
        refine (getElem?_writeKey_of_notMem hnot (sink.set pos' part) source).trans ?_
        exact List.getElem?_set_self (hlt pos' List.mem_cons_self)
      | succ i =>
        have hlt : ∀ pos ∈ poss, pos < (sink.set pos' part).length := fun pos hm => by
          rw [List.length_set]
          exact hlt pos (List.mem_cons_of_mem _ hm)
        exact ih hn (by simpa using hl) hlt h

theorem getElem?_copyKey {poss : List Nat} {sink source : List K} (hl : source.length = sink.length)
    {pos : Nat} (hm : pos ∈ poss) (hlt : pos < sink.length) :
    (copyKey poss sink source)[pos]? = source[pos]? := by
  induction poss generalizing sink with
  | nil => cases hm
  | cons pos' poss ih =>
    have hset : (sink.set pos' (source.getD pos' default)).length = sink.length := List.length_set
    by_cases hrest : pos ∈ poss
    · exact ih (hl.trans hset.symm) hrest (hset.symm ▸ hlt)
    · obtain rfl : pos = pos' := (List.mem_cons.mp hm).resolve_right hrest
      refine (getElem?_copyKey_of_notMem hrest _ source).trans ?_
      rw [List.getElem?_set_self hlt, List.getD_eq_getElem?_getD,
        List.getElem?_eq_getElem (hl ▸ hlt), Option.getD_some]

namespace Version

variable {version : Version} {poss : List Nat} {key key' sink source : List K} {size : Nat}
variable {mapping : List (List Nat)} {tuple : List (List K)}

theorem length_updateEntryKey (version : Version) (poss : List Nat) (sink source : List K) :
    (version.updateEntryKey poss sink source).length = sink.length := by
  cases version with
  | einsum => exact length_writeKey poss sink source
  | query => exact length_copyKey poss sink source

theorem getElem?_updateEntryKey {pos : Nat} (h : pos ∉ poss) (version : Version) (sink source : List K) :
    (version.updateEntryKey poss sink source)[pos]? = sink[pos]? := by
  cases version with
  | einsum => exact getElem?_writeKey_of_notMem h sink source
  | query => exact getElem?_copyKey_of_notMem h sink source

theorem holdsParts_updateEntryKey (h : version.Fits sink.length poss source) :
    version.HoldsParts poss (version.updateEntryKey poss sink source) source := by
  cases version with
  | einsum => exact fun i pos hi => getElem?_writeKey h.2.1 h.1 h.2.2 hi
  | query => exact fun pos hm => getElem?_copyKey h.1 hm (h.2 pos hm)

omit [Inhabited K] in
theorem HoldsParts.congr (h : version.HoldsParts poss key source)
    (heq : ∀ pos ∈ poss, key'[pos]? = key[pos]?) : version.HoldsParts poss key' source := by
  cases version with
  | einsum => exact fun i pos hi => (heq pos (List.mem_of_getElem? hi)).trans (h i pos hi)
  | query => exact fun pos hm => (heq pos hm).trans (h pos hm)

open FullCartesianResult

theorem length_writeTuple (version : Version) (mapping : List (List Nat)) (tuple : List (List K))
    (key : List K) : (writeTuple version.updateEntryKey mapping tuple key).length = key.length := by
  induction mapping generalizing tuple key with
  | nil => rfl
  | cons poss mapping ih =>
    cases tuple with
    | nil => rfl
    | cons source tuple => exact (ih tuple _).trans (version.length_updateEntryKey poss key source)

theorem getElem?_writeTuple {pos : Nat} (h : ∀ poss ∈ mapping, pos ∉ poss) (version : Version)
    (tuple : List (List K)) (key : List K) :
    (writeTuple version.updateEntryKey mapping tuple key)[pos]? = key[pos]? := by
  induction mapping generalizing tuple key with
  | nil => rfl
  | cons poss mapping ih =>
    cases tuple with
    | nil => rfl
    | cons source tuple =>
      refine (ih (fun p hp => h p (List.mem_cons_of_mem _ hp)) tuple _).trans ?_
      exact getElem?_updateEntryKey (h poss List.mem_cons_self) version key source

/-- All parts stay in place, as the positions are disjoint. -/
theorem holdsParts_writeTuple (hdisj : mapping.Pairwise List.Disjoint)
    (hfits : List.Forall₂ (fun poss source => version.Fits size poss source) mapping tuple)
    (hl : key.length = size) :
    List.Forall₂ (fun poss source => version.HoldsParts poss
      (writeTuple version.updateEntryKey mapping tuple key) source) mapping tuple := by
  induction hfits generalizing key with
  | nil => exact .nil
  | @cons poss source mapping tuple hfit hrest ih =>
    obtain ⟨hhead, hdisj⟩ := List.pairwise_cons.mp hdisj
    refine .cons ?_ (ih hdisj ((version.length_updateEntryKey poss key source).trans hl))
    refine (holdsParts_updateEntryKey (hl.symm ▸ hfit)).congr fun pos hm => ?_
    exact getElem?_writeTuple (fun p hp => hhead p hp hm) version tuple _

end Version

/-- One round of a loop: the tuple, the value and the target key as the caller sees them. -/
structure Visit (K : Type) where
  tuple : List (Entry K)
  value : Nat
  key : List K

namespace FullCartesianResult

variable (mul : Nat → Nat → Nat) (boolValued : Bool) (version : Version)
variable (overwrite : Nat → List K → List K)

/-- The rounds that are left, with at most so many of them. The caller may write to the target key
before it increments. -/
def visits : Nat → FullCartesianResult K → List K → Option (List (Visit K))
  | 0, _, _ => none
  | rounds + 1, r, key =>
    if r.ended then some []
    else do
      let tuple ← reading r.subResults r.iterPoss
      let (r', key') ← r.increment mul boolValued version.updateEntryKey (overwrite rounds key)
      let rest ← visits rounds r' key'
      some (⟨tuple, r.value, key⟩ :: rest)

/-- A loop from `begin` on, with one round for each tuple. -/
def enumerate (r : FullCartesianResult K) (key : List K) : Option (List (Visit K)) := do
  let (r, key) ← r.restart mul boolValued version.updateEntryKey key
  r.visits mul boolValued version overwrite ((r.subResults.map List.length).prod + 1) key

/-- A call of `operator++` or of `begin`, with any target key. -/
def Call (r r' : FullCartesianResult K) : Prop :=
  ∃ key key', r.increment mul boolValued version.updateEntryKey key = some (r', key') ∨
    r.restart mul boolValued version.updateEntryKey key = some (r', key')

variable {mul : Nat → Nat → Nat} {boolValued : Bool} {version : Version}
variable {overwrite : Nat → List K → List K}
variable {r r' : FullCartesianResult K} {key : List K} {current : List (Entry K)}
variable {rest : List (List (Entry K))} {size : Nat}

theorem Call.frame (h : Call mul boolValued version r r') :
    r'.subResults = r.subResults ∧ r'.resultMapping = r.resultMapping := by
  obtain ⟨key, key', h | h⟩ := h
  · obtain ⟨_, -, h⟩ := Option.bind_eq_some_iff.mp h
    cases h
    exact ⟨rfl, rfl⟩
  · obtain ⟨_, -, h⟩ := Option.bind_eq_some_iff.mp h
    cases h
    exact ⟨rfl, rfl⟩

theorem calls_frame (h : Relation.ReflTransGen (Call mul boolValued version) r r') :
    r'.subResults = r.subResults ∧ r'.resultMapping = r.resultMapping := by
  induction h with
  | refl => exact ⟨rfl, rfl⟩
  | tail _ hcall ih => exact ⟨hcall.frame.1.trans ih.1, hcall.frame.2.trans ih.2⟩

/-- The rounds from these positions and this value on, for target keys of this size. -/
inductive Visited (mul : Nat → Nat → Nat) (boolValued : Bool) (version : Version) (size : Nat)
    (subResults : List (List (Entry K))) (mapping : List (List Nat)) :
    List Nat → Nat → List (Visit K) → Prop where
  | last {iterPoss : List Nat} {value : Nat} {current : List (Entry K)} {key : List K}
      (hrem : remaining subResults iterPoss = [current]) (hkey : key.length = size) :
      Visited mul boolValued version size subResults mapping iterPoss value
        [⟨current, value, writeTuple version.updateEntryKey mapping (current.map Weighted.key) key⟩]
  | next {iterPoss : List Nat} {value : Nat} {current next : List (Entry K)}
      {rest : List (List (Entry K))} {key : List K} {vs : List (Visit K)}
      (hrem : remaining subResults iterPoss = current :: next :: rest) (hkey : key.length = size)
      (hrest : Visited mul boolValued version size subResults mapping
        (advance subResults iterPoss) (updateValue mul boolValued subResults iterPoss value) vs) :
      Visited mul boolValued version size subResults mapping iterPoss value
        (⟨current, value, writeTuple version.updateEntryKey mapping (current.map Weighted.key) key⟩ :: vs)

theorem visits_spec {rounds : Nat} (hrange : InRange r.subResults r.iterPoss)
    (hl : r.resultMapping.length = r.subResults.length)
    (hover : ∀ round key, (overwrite round key).length = key.length)
    (hrem : remaining r.subResults r.iterPoss = current :: rest) (hended : r.ended = false)
    (hrounds : rest.length + 1 < rounds) (hkey : key.length = size) :
    Ensures (r.visits mul boolValued version overwrite rounds
        (writeTuple version.updateEntryKey r.resultMapping (current.map Weighted.key) key))
      (Visited mul boolValued version size r.subResults r.resultMapping r.iterPoss r.value) := by
  induction rest generalizing r current rounds key with
  | nil =>
    obtain ⟨rounds, rfl⟩ : ∃ n, rounds = n + 2 := ⟨rounds - 2, by simp at hrounds; omega⟩
    obtain ⟨next, rest', -, hnext⟩ := exists_remaining hrange.advance
    rw [visits, hended, if_neg Bool.false_ne_true, reading_of_remaining hrange hrem]
    simp only [increment, incrementFrom_spec hrange hl hrem hnext, Option.bind_eq_bind,
      Option.bind_some]
    exact Ensures.pure (.last hrem hkey)
  | cons next rest ih =>
    obtain ⟨rounds, rfl⟩ : ∃ n, rounds = n + 1 := ⟨rounds - 1, by omega⟩
    have hrem' := remaining_advance hrange hrem
    rw [if_neg (List.cons_ne_nil _ _)] at hrem'
    have hnext := reading_of_remaining hrange.advance hrem'
    rw [visits, hended, if_neg Bool.false_ne_true, reading_of_remaining hrange hrem]
    simp only [increment, incrementFrom_spec hrange hl hrem hnext, Option.bind_eq_bind,
      Option.bind_some]
    have hkey' := (hover rounds _).trans
      ((version.length_writeTuple r.resultMapping (current.map Weighted.key) key).trans hkey)
    refine Ensures.bind (ih (r := { r with iterPoss := _, value := _, ended := false })
      hrange.advance hl hrem' rfl (by simpa using hrounds) hkey') fun vs hvs => ?_
    exact Ensures.pure (.next hrem hkey hvs)

theorem enumerate_spec (hne : ∀ subResult ∈ r.subResults, subResult ≠ [])
    (hl : r.resultMapping.length = r.subResults.length)
    (hover : ∀ round key, (overwrite round key).length = key.length)
    (hsections : r.subResults.sections = current :: rest) (hkey : key.length = size) :
    Ensures (r.enumerate mul boolValued version overwrite key)
      (Visited mul boolValued version size r.subResults r.resultMapping
        (r.subResults.map fun _ => 0) (startValue mul boolValued current)) := by
  have hlen := congrArg List.length hsections
  rw [length_sections, List.length_cons] at hlen
  rw [enumerate, restart, restartFrom_spec hne hl hsections]
  simp only [Option.bind_eq_bind, Option.bind_some]
  exact visits_spec (r := { r with iterPoss := _, value := _, ended := false }) (inRange_start hne) hl
    hover ((remaining_start hne).trans hsections) rfl (by rw [hlen]; exact Nat.lt_succ_self _) hkey

namespace Visited

variable {subResults : List (List (Entry K))} {mapping : List (List Nat)} {iterPoss : List Nat}
variable {value : Nat} {vs : List (Visit K)}

theorem map_tuple (h : Visited mul boolValued version size subResults mapping iterPoss value vs)
    (hrange : InRange subResults iterPoss) :
    vs.map Visit.tuple = remaining subResults iterPoss := by
  induction h with
  | last hrem _ => exact hrem.symm
  | next hrem _ _ ih =>
    have hrem' := remaining_advance hrange hrem
    rw [if_neg (List.cons_ne_nil _ _)] at hrem'
    rw [List.map_cons, ih hrange.advance, hrem', hrem]

theorem key_eq (h : Visited mul boolValued version size subResults mapping iterPoss value vs) :
    ∀ v ∈ vs, ∃ key : List K, key.length = size ∧
      v.key = writeTuple version.updateEntryKey mapping (v.tuple.map Weighted.key) key := by
  induction h with
  | last _ hkey =>
    intro v hv
    rw [List.mem_singleton.mp hv]
    exact ⟨_, hkey, rfl⟩
  | next _ hkey _ ih =>
    intro v hv
    rcases List.mem_cons.mp hv with rfl | hv
    · exact ⟨_, hkey, rfl⟩
    · exact ih v hv

theorem value_exact
    (h : Visited (· * ·) boolValued version size subResults mapping iterPoss value vs)
    (hrange : InRange subResults iterPoss) (hval : ValuesOk boolValued subResults)
    (hvalue : ∀ current, reading subResults iterPoss = some current →
      value = reported boolValued (ofTuple current)) :
    ∀ v ∈ vs, v.value = reported boolValued (ofTuple v.tuple) := by
  induction h with
  | last hrem _ =>
    intro v hv
    rw [List.mem_singleton.mp hv]
    exact hvalue _ (reading_of_remaining hrange hrem)
  | next hrem _ _ ih =>
    intro v hv
    have hread := reading_of_remaining hrange hrem
    rcases List.mem_cons.mp hv with rfl | hv
    · exact hvalue _ hread
    · refine ih hrange.advance (fun next hnext => ?_) v hv
      rw [hvalue _ hread]
      exact updateValue_exact hrange hval hread hnext

end Visited

section Product

variable {subResults : List (List (Entry K))} {resultPoss : List (List Nat)} {excludedPos : Nat}

theorem subResultVec_of_ne_nil {subResult : List (Entry K)} (h : subResult ≠ []) (version : Version)
    (size : Nat) : version.subResultVec size subResult = subResult := by
  cases version with
  | einsum => rfl
  | query => exact if_neg (by simpa using h)

theorem subResults_fullCartesianResult (hne : ∀ subResult ∈ subResults, subResult ≠ [])
    (version : Version) (size : Nat) (resultPoss : List (List Nat)) (excludedPos : Nat) :
    (version.fullCartesianResult size subResults resultPoss excludedPos).subResults = subResults := by
  have hid (s) (hs : s ∈ subResults) : version.subResultVec size s = s :=
    subResultVec_of_ne_nil (hne s hs) version size
  exact (List.map_congr_left hid).trans (List.map_id' subResults)

omit [Inhabited K] in
theorem reported_eq_prod {tuple : List (Entry K)} (hm : List.Forall₂ (· ∈ ·) tuple subResults)
    (hval : ∀ subResult ∈ subResults, ∀ e ∈ subResult, boolValued = true → e.value = 1) :
    reported boolValued (ofTuple tuple) = (tuple.map Weighted.value).prod := by
  cases boolValued with
  | false => rfl
  | true =>
    induction hm with
    | nil => rfl
    | @cons e subResult tuple subResults he _ ih =>
      have ih := ih fun s hs => hval s (List.mem_cons_of_mem _ hs)
      rw [List.map_cons, List.prod_cons, ← ih, hval subResult List.mem_cons_self e he rfl]
      rfl

omit [Inhabited K] in
theorem fits_tuple {mapping : List (List Nat)} {tuple : List (Entry K)}
    (hfits : List.Forall₂ (fun poss subResult => ∀ e ∈ subResult, version.Fits size poss e.key)
      mapping subResults) (hm : List.Forall₂ (· ∈ ·) tuple subResults) :
    List.Forall₂ (fun poss source => version.Fits size poss source) mapping
      (tuple.map Weighted.key) := by
  induction hfits generalizing tuple with
  | nil =>
    cases hm
    exact .nil
  | cons hfit _ ih =>
    cases hm with
    | cons he hm => exact .cons (hfit _ he) (ih hm)

/-- A loop over the product goes through the tuples once, in the same order whatever has been called
before and whatever the caller writes to the target entry. -/
theorem enumerate_product (hne : ∀ subResult ∈ subResults, subResult ≠ [])
    (hkeys : ∀ subResult ∈ subResults, (subResult.map Weighted.key).Nodup)
    (hval : ∀ subResult ∈ subResults, ∀ e ∈ subResult, e.value ≠ 0 ∧ (boolValued = true → e.value = 1))
    (hdisj : resultPoss.Pairwise List.Disjoint)
    (hfits : List.Forall₂ (fun poss subResult => ∀ e ∈ subResult, version.Fits size poss e.key)
      (resultPoss.eraseIdx excludedPos) subResults) :
    ∃ tuples : List (List (Entry K)), tuples.Nodup ∧
      (∀ tuple, tuple ∈ tuples ↔ List.Forall₂ (· ∈ ·) tuple subResults) ∧
      ∀ r, Relation.ReflTransGen (Call (· * ·) boolValued version)
          (version.fullCartesianResult size subResults resultPoss excludedPos) r →
        ∀ overwrite : Nat → List K → List K, (∀ round key, (overwrite round key).length = key.length) →
          ∀ key : List K, key.length = size →
            ∃ vs, r.enumerate (· * ·) boolValued version overwrite key = some vs ∧
              vs.map Visit.tuple = tuples ∧
              ∀ v ∈ vs, v.value = (v.tuple.map Weighted.value).prod ∧
                List.Forall₂ (fun poss e => version.HoldsParts poss v.key e.key)
                  (resultPoss.eraseIdx excludedPos) v.tuple := by
  refine ⟨subResults.sections, nodup_sections fun s hs => (hkeys s hs).of_map _, fun _ =>
    List.mem_sections, fun r hr overwrite hover key hkey => ?_⟩
  obtain ⟨hsub, hmapping⟩ := calls_frame hr
  rw [subResults_fullCartesianResult hne] at hsub
  subst hsub
  have hl : r.resultMapping.length = r.subResults.length := by
    rw [hmapping]
    exact hfits.length_eq
  obtain ⟨current, rest, hsections⟩ := List.exists_cons_of_ne_nil (sections_ne_nil hne)
  have henumerate : Ensures (r.enumerate (· * ·) boolValued version overwrite key) _ :=
    enumerate_spec hne hl hover hsections hkey
  obtain ⟨vs, hvs, hvisited⟩ := henumerate
  have hstart := (remaining_start hne).trans hsections
  have htuples := (hvisited.map_tuple (inRange_start hne)).trans (remaining_start hne)
  have hok : ValuesOk boolValued r.subResults := fun _ s hs e he => (hval s hs e he).1
  have hvalues := hvisited.value_exact (inRange_start hne) hok fun current' hread => by
    obtain rfl := Option.some.inj ((reading_of_remaining (inRange_start hne) hstart).symm.trans hread)
    exact restart_exact boolValued current
  refine ⟨vs, hvs, htuples, fun v hv => ?_⟩
  have hmem : List.Forall₂ (· ∈ ·) v.tuple r.subResults :=
    List.mem_sections.mp (htuples ▸ List.mem_map_of_mem hv)
  refine ⟨?_, ?_⟩
  · rw [hvalues v hv]
    exact reported_eq_prod hmem fun s hs e he => (hval s hs e he).2
  · obtain ⟨key', hkey', hwritten⟩ := hvisited.key_eq v hv
    rw [hwritten, hmapping]
    exact List.forall₂_map_right_iff.mp (Version.holdsParts_writeTuple
      (hdisj.sublist (List.eraseIdx_sublist ..)) (fits_tuple hfits hmem) hkey')

/-- Two sub-results; the last of the three positions is that of the iterated one. -/
theorem enumerate_product_two :
    ∃ vs, (Version.einsum.fullCartesianResult 3 [[⟨[5], 2⟩, ⟨[6], 3⟩], [⟨[7], 1⟩, ⟨[8], 4⟩]]
        [[2], [0], [1]] 0).enumerate (· * ·) false .einsum (fun _ key => key) [0, 0, 0] = some vs ∧
      ∀ v ∈ vs, v.value = (v.tuple.map Weighted.value).prod ∧
        List.Forall₂ (fun poss e => Version.einsum.HoldsParts poss v.key e.key)
          ([[2], [0], [1]].eraseIdx 0) v.tuple := by
  let subResults : List (List (Entry Nat)) := [[⟨[5], 2⟩, ⟨[6], 3⟩], [⟨[7], 1⟩, ⟨[8], 4⟩]]
  have hval : ∀ subResult ∈ subResults, ∀ e ∈ subResult, e.value ≠ 0 ∧ (false = true → e.value = 1) := by
    decide
  have hdisj : List.Pairwise List.Disjoint ([[2], [0], [1]] : List (List Nat)) := by simp
  have hfits : List.Forall₂ (fun poss subResult => ∀ e ∈ subResult, Version.einsum.Fits 3 poss e.key)
      ([[2], [0], [1]].eraseIdx 0) subResults := by
    refine .cons (fun e he => ?_) (.cons (fun e he => ?_) .nil) <;>
      rcases List.mem_pair.mp he with rfl | rfl <;> exact ⟨rfl, by decide, by decide⟩
  obtain ⟨tuples, -, -, h⟩ := enumerate_product (by decide) (by decide) hval hdisj hfits
  obtain ⟨vs, hvs, -, hv⟩ := h _ .refl (fun _ key => key) (fun _ _ => rfl) [0, 0, 0] rfl
  exact ⟨vs, hvs, hv⟩

end Product

end FullCartesianResult

end Hypertrie
