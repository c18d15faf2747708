import Hypertrie.QueryJoin

/-! The Cartesian product of the components of a conjunction. The keys of all components
have full length, and each writes to the places of its own variables. -/

namespace Hypertrie

open UnorderedMap Weighted LabelledOperand Assignment FullCartesianResult

variable {M : Type → Type → Type} [UnorderedMap M] {K V D : Type}
variable [Inhabited K]

namespace Query

section Keys

variable {U : Finset Label} {projVars : List Label} {key source : List K} {poss : List Nat}
variable {σ : Label → K}

omit [Inhabited K] in
theorem getElem?_fill (U : Finset Label) (projVars : List Label) (key : List K) (σ : Label → K)
    (pos : Nat) : (fill U projVars key σ)[pos]? = (projVars[pos]?.bind fun l =>
      key[pos]?.map fun keyPart => if l ∈ U then σ l else keyPart) := by
  rw [fill, List.getElem?_zipWith]
  cases projVars[pos]? <;> cases key[pos]? <;> rfl

/-- The places of the variables in `U`. -/
def Places (projVars : List Label) (U : Finset Label) (poss : List Nat) : Prop :=
  ∀ pos, pos ∈ poss ↔ pos ∈ resultPoss U projVars

/-- Copying the parts of some variables. -/
theorem copyKey_fill (h : Places projVars U poss) (hl : key.length = projVars.length) (σ : Label → K) :
    copyKey poss key (fill U projVars (List.replicate projVars.length default) σ) =
      fill U projVars key σ := by
  apply List.ext_getElem?
  intro pos
  rw [getElem?_fill]
  by_cases hm : pos ∈ poss
  · obtain ⟨l, hu, hpos⟩ := mem_resultPoss.mp ((h pos).mp hm)
    have hlt := (List.getElem?_eq_some_iff.mp hpos).1
    have hlt' : pos < key.length := by rwa [hl]
    rw [getElem?_copyKey (by simp [fill, hl]) hm hlt', getElem?_fill, hpos, Option.bind_some,
      Option.bind_some, List.getElem?_eq_getElem hlt', List.getElem?_replicate, if_pos hlt]
    simp [hu]
  · rw [getElem?_copyKey_of_notMem hm]
    cases hpos : projVars[pos]? with
    | none =>
      rw [List.getElem?_eq_none (hl ▸ List.getElem?_eq_none_iff.mp hpos)]
      rfl
    | some l =>
      have hu : l ∉ U := fun hu => hm ((h pos).mpr (mem_resultPoss.mpr ⟨l, hu, hpos⟩))
      cases key[pos]? with
      | none => rfl
      | some keyPart => simp [hu]

theorem agree_copyKey (h : ∀ pos ∈ poss, pos ∈ resultPoss U projVars) (key source : List K) :
    Agree U projVars (copyKey poss key source) key := by
  induction poss generalizing key with
  | nil => exact .refl _ _ _
  | cons pos poss ih =>
    obtain ⟨l, hu, hpos⟩ := mem_resultPoss.mp (h pos List.mem_cons_self)
    exact (ih (fun p hp => h p (List.mem_cons_of_mem _ hp)) _).trans (.set hpos hu _)

theorem agree_writeTuple {mapping : List (List Nat)}
    (h : ∀ poss ∈ mapping, ∀ pos ∈ poss, pos ∈ resultPoss U projVars) (tuple : List (List K))
    (key : List K) : Agree U projVars (writeTuple copyKey mapping tuple key) key := by
  induction mapping generalizing tuple key with
  | nil => exact .refl _ _ _
  | cons poss mapping ih =>
    cases tuple with
    | nil => exact .refl _ _ _
    | cons source tuple =>
      exact (ih (fun p hp => h p (List.mem_cons_of_mem _ hp)) tuple _).trans
        (agree_copyKey (h poss List.mem_cons_self) key source)

end Keys

section Groups

variable {projVars : List Label} {operands group : List (LabelledOperand K V)}
variable {groups : List (List (LabelledOperand K V))} {mapping : List (List Nat)} {key : List K}

/-- Operands as a constraint, which is read as a key with only their variables bound. -/
def groupPart (projVars : List Label) (group : List (LabelledOperand K V)) : Part Label K (List K) :=
  ⟨labelSet group, constraints group,
    fill (labelSet group) projVars (List.replicate projVars.length default)⟩

/-- The operands in groups with different variables. -/
structure Grouping (operands : List (LabelledOperand K V))
    (groups : List (List (LabelledOperand K V))) : Prop where
  perm : groups.flatten.Perm operands
  disjoint : groups.Pairwise fun group group' => Disjoint (labelSet group) (labelSet group')

theorem local_groupPart (projVars : List Label) (group : List (LabelledOperand K V)) :
    (groupPart projVars group).Local :=
  ⟨dependsOn_constraints group, fun _ _ h => fill_congr fun l _ hl => h l hl⟩

/-- Some groups as one. -/
def joined (projVars : List Label) (groups : List (List (LabelledOperand K V))) :
    Part Label K (List (List K)) :=
  Part.join (groups.map (groupPart projVars))

theorem local_joined (projVars : List Label) (groups : List (List (LabelledOperand K V))) :
    (joined projVars groups).Local :=
  Part.local_join (List.forall_mem_map.mpr fun group _ => local_groupPart projVars group)

theorem names_joined (projVars : List Label) (groups : List (List (LabelledOperand K V))) :
    (joined projVars groups).names = labelSet groups.flatten := by
  induction groups with
  | nil => rfl
  | cons group groups ih =>
    have hcons : (joined projVars (group :: groups)).names =
        labelSet group ∪ (joined projVars groups).names := rfl
    rw [hcons, ih, List.flatten_cons]
    simp [labelSet]

theorem constraint_joined (projVars : List Label) (groups : List (List (LabelledOperand K V))) :
    (joined projVars groups).constraint = constraints groups.flatten := by
  ext σ
  rw [joined, Part.mem_constraint_join, List.forall_mem_map, mem_constraints]
  constructor
  · intro h o ho
    obtain ⟨group, hgroup, ho⟩ := List.mem_flatten.mp ho
    exact mem_constraints.mp (h group hgroup) o ho
  · intro h group hgroup
    exact mem_constraints.mpr fun o ho => h o (List.mem_flatten_of_mem hgroup ho)

theorem solutions_perm {operands' : List (LabelledOperand K V)} (h : operands'.Perm operands) :
    solutions operands' = solutions operands := by
  have hset : labelSet operands' = labelSet operands := by
    ext l
    simp only [mem_labelSet, h.mem_iff]
  have hconstraints : constraints operands' = constraints operands := by
    ext σ
    simp only [mem_constraints, h.mem_iff]
  rw [LabelledOperand.solutions, LabelledOperand.solutions, hset, hconstraints]

omit [Inhabited K] in
theorem Grouping.labelSet_eq (h : Grouping operands groups) :
    labelSet operands = labelSet groups.flatten := by
  ext l
  simp only [mem_labelSet, h.perm.mem_iff]

theorem Grouping.disjoint_joined (h : Grouping operands (group :: groups)) :
    Disjoint (joined projVars groups).names (labelSet group) := by
  have hparts : ∀ part ∈ groups.map (groupPart projVars),
      Disjoint (groupPart projVars group).names part.names :=
    List.forall_mem_map.mpr fun group' hgroup' => (List.pairwise_cons.mp h.disjoint).1 group' hgroup'
  exact (Part.disjoint_join hparts).symm

/-- The solutions combine those of one group with those of the others. -/
theorem Grouping.solutions_eq (h : Grouping operands (group :: groups)) (projVars : List Label) :
    solutions operands = (fun p : (Label → K) × (Label → K) =>
        (joined projVars groups).names.piecewise p.1 p.2) ''
      ((joined projVars groups).solutions ×ˢ solutions group) := by
  have hlocal := local_joined projVars groups
  have hflat : solutions operands = Assignment.solutions ((joined projVars groups).names ∪ labelSet group)
      ((joined projVars groups).constraint ∩ constraints group) := by
    have hnames := names_joined projVars (group :: groups)
    have hconstraint := constraint_joined projVars (group :: groups)
    have hcons : (joined projVars (group :: groups)).names =
        labelSet group ∪ (joined projVars groups).names := rfl
    have hcons' : (joined projVars (group :: groups)).constraint =
        constraints group ∩ (joined projVars groups).constraint := rfl
    rw [← solutions_perm h.perm, LabelledOperand.solutions, ← hnames, ← hconstraint, hcons, hcons',
      Finset.union_comm, Set.inter_comm]
  rw [hflat]
  exact Assignment.solutions_inter h.disjoint_joined hlocal.constraint (dependsOn_constraints group)

theorem writeTuple_joined
    (h : List.Forall₂ (fun group => Places projVars (labelSet group)) groups mapping)
    (hl : key.length = projVars.length) (σ : Label → K) :
    writeTuple copyKey mapping ((joined projVars groups).reading σ) key =
      fill (joined projVars groups).names projVars key σ := by
  induction h generalizing key with
  | nil => exact (fill_eq_self hl fun l _ => Finset.notMem_empty l).symm
  | @cons group poss groups mapping hposs _ ih =>
    have htail := @ih (fill (labelSet group) projVars key σ) (length_fill hl)
    have hnames : (joined projVars (group :: groups)).names =
        (joined projVars groups).names ∪ labelSet group := Finset.union_comm _ _
    rw [hnames, ← fill_fill, ← htail, ← copyKey_fill hposs hl σ]
    rfl

theorem copyKey_joined (hg : Grouping operands (group :: groups))
    (h : List.Forall₂ (fun group => Places projVars (labelSet group)) groups mapping)
    {poss : List Nat} (hposs : Places projVars (labelSet group) poss)
    (hl : key.length = projVars.length) (σ τ : Label → K) :
    copyKey poss (writeTuple copyKey mapping ((joined projVars groups).reading σ) key)
        ((groupPart projVars group).reading τ) =
      fill (labelSet operands) projVars key ((joined projVars groups).names.piecewise σ τ) := by
  let ρ := (joined projVars groups).names.piecewise σ τ
  have hσ : fill (joined projVars groups).names projVars key σ =
      fill (joined projVars groups).names projVars key ρ :=
    fill_congr fun l _ hm => (Finset.piecewise_eq_of_mem _ σ τ hm).symm
  have hτ (key : List K) : fill (labelSet group) projVars key τ =
      fill (labelSet group) projVars key ρ := by
    refine fill_congr fun l _ hm => (Finset.piecewise_eq_of_notMem _ σ τ ?_).symm
    exact Finset.disjoint_right.mp hg.disjoint_joined hm
  have hset : labelSet operands = labelSet group ∪ (joined projVars groups).names := by
    rw [hg.labelSet_eq, ← names_joined projVars]
    rfl
  rw [writeTuple_joined h hl, hσ]
  refine (copyKey_fill hposs (length_fill hl) τ).trans ?_
  rw [hτ, fill_fill, hset]

end Groups

end Query

end Hypertrie
