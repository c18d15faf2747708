import Hypertrie.Library.Tally

/-! Constraints on assignments of values to names, as sets of assignments, and
their solutions: the members in which all other names have the default value. -/

namespace Assignment

open Function

variable {L K : Type} [DecidableEq L] [Inhabited K]

/-- Names outside `U` have the default value. -/
def Supported (U : Finset L) (σ : L → K) : Prop := ∀ l ∉ U, σ l = default

def solutions (U : Finset L) (C : Set (L → K)) : Set (L → K) := {σ ∈ C | Supported U σ}

/-- What `C` asks of the other names once `x` has the value `k`. -/
def fix (x : L) (k : K) (C : Set (L → K)) : Set (L → K) := {σ | update σ x k ∈ C}

/-- The rows as a constraint on the names of the columns; several columns may have one name. -/
def table (labels : List L) (rows : Set (List K)) : Set (L → K) := {σ | labels.map σ ∈ rows}

variable {U V : Finset L} {C D : Set (L → K)} {x : L} {k : K} {σ τ : L → K}

omit [Inhabited K] in
theorem dependsOn_table (labels : List L) (rows : Set (List K)) :
    DependsOn (· ∈ table labels rows) (labels.toFinset : Set L) := by
  intro σ τ h
  have hmap : labels.map σ = labels.map τ :=
    List.map_congr_left fun l hl => h l (List.mem_toFinset.mpr hl)
  simp only [table, Set.mem_ofPred_eq, hmap]

omit [Inhabited K] in
theorem dependsOn_inter (hC : DependsOn (· ∈ C) (U : Set L)) (hD : DependsOn (· ∈ D) (V : Set L)) :
    DependsOn (· ∈ C ∩ D) ((U ∪ V : Finset L) : Set L) := by
  intro σ τ h
  have hc := hC (x := σ) (y := τ) fun l hl => h l (Finset.mem_union_left V hl)
  have hd := hD (x := σ) (y := τ) fun l hl => h l (Finset.mem_union_right U hl)
  simp only [eq_iff_iff] at hc hd
  simp only [Set.mem_inter_iff, hc, hd]

omit [Inhabited K] in
theorem fix_inter (x : L) (k : K) (C D : Set (L → K)) : fix x k (C ∩ D) = fix x k C ∩ fix x k D :=
  rfl

/-- The solutions with the value `k` at `x` are those of the constraint that is left. -/
theorem fiber_eq_image (hx : x ∈ U) : {σ ∈ solutions U C | σ x = k} =
    (fun σ => update σ x k) '' solutions (U.erase x) (fix x k C) := by
  ext σ
  constructor
  · rintro ⟨⟨hC, hs⟩, rfl⟩
    have heq : update (update σ x default) x (σ x) = σ := by simp
    refine ⟨update σ x default, ⟨?_, ?_⟩, heq⟩
    · rwa [fix, Set.mem_ofPred_eq, heq]
    · intro l hl
      by_cases hlx : l = x
      · simp [hlx]
      · rw [update_of_ne hlx]
        exact hs l fun hm => hl (Finset.mem_erase.mpr ⟨hlx, hm⟩)
  · rintro ⟨τ, ⟨hC, hs⟩, rfl⟩
    refine ⟨⟨hC, fun l hl => ?_⟩, update_self _ _ _⟩
    have hlx : l ≠ x := fun h => hl (h ▸ hx)
    simp only [update_of_ne hlx]
    exact hs l fun hm => hl (Finset.mem_of_mem_erase hm)

theorem injOn_update (k : K) (D : Set (L → K)) :
    Set.InjOn (fun σ => update σ x k) (solutions (U.erase x) D) := by
  intro σ hσ τ hτ h
  funext l
  by_cases hl : l = x
  · rw [hl, hσ.2 x (Finset.notMem_erase x U), hτ.2 x (Finset.notMem_erase x U)]
  · have := congrFun h l
    simpa only [update_of_ne hl] using this

omit [DecidableEq L] in
theorem solutions_empty : solutions (∅ : Finset L) (Set.univ : Set (L → K)) = {default} := by
  ext σ
  constructor
  · intro h
    exact funext fun l => h.2 l (Finset.notMem_empty l)
  · rintro rfl
    exact ⟨trivial, fun _ _ => rfl⟩

/-- The solutions of constraints on different names are the combinations of their solutions. -/
theorem solutions_inter (hd : Disjoint U V) (hC : DependsOn (· ∈ C) (U : Set L))
    (hD : DependsOn (· ∈ D) (V : Set L)) : solutions (U ∪ V) (C ∩ D) =
      (fun p : (L → K) × (L → K) => U.piecewise p.1 p.2) '' (solutions U C ×ˢ solutions V D) := by
  have hpw {σ τ : L → K} : (U.piecewise σ τ ∈ C ↔ σ ∈ C) ∧ (U.piecewise σ τ ∈ D ↔ τ ∈ D) := by
    refine ⟨iff_of_eq (hC fun l hl => ?_), iff_of_eq (hD fun l hl => ?_)⟩
    · exact Finset.piecewise_eq_of_mem U σ τ hl
    · exact Finset.piecewise_eq_of_notMem U σ τ (Finset.disjoint_right.mp hd hl)
  ext σ
  constructor
  · rintro ⟨⟨hc, hd⟩, hs⟩
    have heq : U.piecewise (U.piecewise σ default) (V.piecewise σ default) = σ := by
      funext l
      by_cases hu : l ∈ U
      · simp [hu]
      · by_cases hv : l ∈ V
        · simp [hu, hv]
        · have := hs l (by simp [hu, hv])
          simp [hu, hv, this]
    refine ⟨(U.piecewise σ default, V.piecewise σ default), ⟨⟨?_, ?_⟩, ?_, ?_⟩, heq⟩
    · rw [← heq] at hc
      exact hpw.1.mp hc
    · intro l hl
      simp [hl]
    · rw [← heq] at hd
      exact hpw.2.mp hd
    · intro l hl
      simp [hl]
  · rintro ⟨⟨σ, τ⟩, ⟨⟨hc, hs⟩, hd, ht⟩, rfl⟩
    refine ⟨⟨hpw.1.mpr hc, hpw.2.mpr hd⟩, fun l hl => ?_⟩
    simp only [Finset.mem_union, not_or] at hl
    exact (Finset.piecewise_eq_of_notMem _ _ _ hl.1).trans (ht l hl.2)

theorem injOn_piecewise (hd : Disjoint U V) :
    Set.InjOn (fun p : (L → K) × (L → K) => U.piecewise p.1 p.2) (solutions U C ×ˢ solutions V D) := by
  rintro ⟨σ, τ⟩ ⟨hσ, hτ⟩ ⟨σ', τ'⟩ ⟨hσ', hτ'⟩ h
  have hval (l : L) : U.piecewise σ τ l = U.piecewise σ' τ' l := congrFun h l
  apply Prod.ext
  · funext l
    by_cases hl : l ∈ U
    · simpa [hl] using hval l
    · exact (hσ.2 l hl).trans (hσ'.2 l hl).symm
  · funext l
    by_cases hl : l ∈ V
    · simpa [Finset.disjoint_right.mp hd hl] using hval l
    · exact (hτ.2 l hl).trans (hτ'.2 l hl).symm

/-- Constraints on some names together with a reading of their values. -/
structure Part (L K β : Type) where
  names : Finset L
  constraint : Set (L → K)
  reading : (L → K) → β

namespace Part

open Weighted

variable {β : Type} {part : Part L K β} {parts : List (Part L K β)} {counting : Bool}

def solutions (part : Part L K β) : Set (L → K) := Assignment.solutions part.names part.constraint

structure Local (part : Part L K β) : Prop where
  constraint : DependsOn (· ∈ part.constraint) (part.names : Set L)
  reading : DependsOn part.reading (part.names : Set L)

/-- The parts as one. -/
def join : List (Part L K β) → Part L K (List β)
  | [] => ⟨∅, Set.univ, fun _ => []⟩
  | part :: parts => ⟨part.names ∪ (join parts).names, part.constraint ∩ (join parts).constraint,
      fun σ => part.reading σ :: (join parts).reading σ⟩

omit [Inhabited K] in
theorem local_join (h : ∀ part ∈ parts, part.Local) : (join parts).Local := by
  induction parts with
  | nil => exact ⟨fun _ _ _ => rfl, fun _ _ _ => rfl⟩
  | cons part parts ih =>
    have hpart := h part List.mem_cons_self
    have hparts := ih fun p hp => h p (List.mem_cons_of_mem _ hp)
    refine ⟨dependsOn_inter hpart.constraint hparts.constraint, fun σ τ hl => ?_⟩
    have hhead := hpart.reading fun l hm => hl l (Finset.mem_union_left _ hm)
    have htail := hparts.reading fun l hm => hl l (Finset.mem_union_right _ hm)
    exact congrArg₂ List.cons hhead htail

omit [Inhabited K] in
theorem disjoint_join (h : ∀ p ∈ parts, Disjoint part.names p.names) :
    Disjoint part.names (join parts).names := by
  induction parts with
  | nil => exact Finset.disjoint_empty_right _
  | cons p parts ih =>
    refine Finset.disjoint_union_right.mpr ⟨h p List.mem_cons_self, ?_⟩
    exact ih fun q hq => h q (List.mem_cons_of_mem _ hq)

theorem solutions_join_cons (hp : part.Local) (hps : (join parts).Local)
    (hd : Disjoint part.names (join parts).names) : (join (part :: parts)).solutions =
      (fun p : (L → K) × (L → K) => part.names.piecewise p.1 p.2) ''
        (part.solutions ×ˢ (join parts).solutions) :=
  solutions_inter hd hp.constraint hps.constraint

omit [Inhabited K] in
theorem mem_names_join {l : L} : l ∈ (join parts).names ↔ ∃ part ∈ parts, l ∈ part.names := by
  induction parts with
  | nil => simp [join]
  | cons part parts ih => rw [join, Finset.mem_union, ih, List.exists_mem_cons_iff]

omit [Inhabited K] in
theorem mem_constraint_join {σ : L → K} :
    σ ∈ (join parts).constraint ↔ ∀ part ∈ parts, σ ∈ part.constraint := by
  induction parts with
  | nil => simp [join]
  | cons part parts ih => rw [join, Set.mem_inter_iff, ih, List.forall_mem_cons]

theorem nonempty_of_join (hl : ∀ part ∈ parts, part.Local) (h : (join parts).solutions.Nonempty) :
    ∀ part ∈ parts, part.solutions.Nonempty := by
  obtain ⟨σ, hσ, -⟩ := h
  intro part hp
  refine ⟨part.names.piecewise σ default, ?_, fun l hm => Finset.piecewise_eq_of_notMem _ _ _ hm⟩
  have hlocal := (hl part hp).constraint (x := part.names.piecewise σ default) (y := σ)
    fun l hm => Finset.piecewise_eq_of_mem _ _ _ hm
  exact (iff_of_eq hlocal).mpr (mem_constraint_join.mp hσ part hp)

/-- The combinations of listed parts list the parts as one. -/
theorem lists_tuples [DecidableEq β] {outs : List (List (Weighted β))} (hl : ∀ part ∈ parts, part.Local)
    (hd : parts.Pairwise fun p q => Disjoint p.names q.names)
    (h : List.Forall₂ (fun part out => Lists counting out part.solutions part.reading) parts outs) :
    Lists counting (tuples outs) (join parts).solutions (join parts).reading := by
  induction h with
  | nil =>
    rw [solutions, join, solutions_empty]
    refine ⟨fun b => ?_, fun _ => .single (by simp) fun _ _ => rfl, fun _ e he => ?_⟩
    · simp [tuples, eq_comm]
    · rw [List.mem_singleton.mp he]
      exact Nat.one_ne_zero
  | @cons part out parts outs hpart _ ih =>
    obtain ⟨hdp, hd⟩ := List.pairwise_cons.mp hd
    have hlp := hl part List.mem_cons_self
    have hls := local_join fun p hp => hl p (List.mem_cons_of_mem _ hp)
    have hdisj := disjoint_join hdp
    have hrest := ih (fun p hp => hl p (List.mem_cons_of_mem _ hp)) hd
    rw [tuples_cons, solutions_join_cons hlp hls hdisj]
    refine (Lists.image (injOn_piecewise hdisj)).mpr ?_
    refine ((hpart.pairs hrest).mapKey fun p => p.1 :: p.2).congr ?_
    rintro ⟨σ, τ⟩ -
    have hhead : part.reading (part.names.piecewise σ τ) = part.reading σ :=
      hlp.reading fun l hm => Finset.piecewise_eq_of_mem _ _ _ hm
    have htail : (join parts).reading (part.names.piecewise σ τ) = (join parts).reading τ :=
      hls.reading fun l hm =>
        Finset.piecewise_eq_of_notMem _ _ _ (Finset.disjoint_right.mp hdisj hm)
    exact congrArg₂ List.cons hhead.symm htail.symm

/-- The product of the counts counts the parts as one. -/
theorem counts_prod {ns : List ℕ} (hl : ∀ part ∈ parts, part.Local)
    (hd : parts.Pairwise fun p q => Disjoint p.names q.names)
    (h : List.Forall₂ (fun part n => Counts counting n part.solutions) parts ns) :
    Counts counting ns.prod (join parts).solutions := by
  induction h with
  | nil =>
    rw [solutions, join, solutions_empty]
    exact ⟨by simp, by simp⟩
  | @cons part n parts ns hpart _ ih =>
    obtain ⟨hdp, hd⟩ := List.pairwise_cons.mp hd
    have hlp := hl part List.mem_cons_self
    have hls := local_join fun p hp => hl p (List.mem_cons_of_mem _ hp)
    have hdisj := disjoint_join hdp
    rw [List.prod_cons, solutions_join_cons hlp hls hdisj]
    exact (Counts.image (injOn_piecewise hdisj)).mpr
      (hpart.prod (ih (fun p hp => hl p (List.mem_cons_of_mem _ hp)) hd))

end Part

end Assignment
