import Mathlib

/-! An odometer whose wheels are lists. Its readings are the sections of the
list of wheels, and the first wheel turns fastest. -/

namespace Odometer

variable {α : Type} {wheels : List (List α)} {poss : List Nat} {current : List α}
  {rest : List (List α)}

/-- What the positions point at. -/
def reading : List (List α) → List Nat → Option (List α)
  | wheel :: wheels, pos :: poss => do
    let a ← wheel[pos]?
    let current ← reading wheels poss
    some (a :: current)
  | [], _ => some []
  | _ :: _, [] => none

/-- One step. A wheel that is at its end goes back and carries over. -/
def advance : List (List α) → List Nat → List Nat
  | wheel :: wheels, pos :: poss =>
    if pos + 1 = wheel.length then 0 :: advance wheels poss else (pos + 1) :: poss
  | _, poss => poss

/-- What a step takes out of the reading, with what it puts in. -/
def replaced : List (List α) → List Nat → List (α × α)
  | wheel :: wheels, pos :: poss =>
    match wheel.drop pos with
    | [] => []
    | [last] => (last, wheel.headD last) :: replaced wheels poss
    | last :: current :: _ => [(last, current)]
  | _, _ => []

/-- The readings from the current one on. -/
def remaining : List (List α) → List Nat → List (List α)
  | wheel :: wheels, pos :: poss =>
    match remaining wheels poss with
    | [] => []
    | current :: rest =>
      (wheel.drop pos).map (· :: current) ++ rest.flatMap fun current => wheel.map (· :: current)
  | [], _ => [[]]
  | _ :: _, [] => []

/-- The positions point at elements. -/
def InRange (wheels : List (List α)) (poss : List Nat) : Prop :=
  List.Forall₂ (fun wheel pos => pos < wheel.length) wheels poss

theorem sections_ne_nil (h : ∀ wheel ∈ wheels, wheel ≠ []) : wheels.sections ≠ [] := by
  induction wheels with
  | nil => exact List.cons_ne_nil _ _
  | cons wheel wheels ih =>
    have ih := ih fun w hw => h w (List.mem_cons_of_mem _ hw)
    simpa [List.sections, List.flatMap_eq_nil_iff, h wheel List.mem_cons_self] using
      List.exists_mem_of_ne_nil _ ih

theorem length_sections (wheels : List (List α)) :
    wheels.sections.length = (wheels.map List.length).prod := by
  induction wheels with
  | nil => rfl
  | cons wheel wheels ih => simp [List.sections, ih, List.length_flatMap, mul_comm]

theorem nodup_sections (h : ∀ wheel ∈ wheels, wheel.Nodup) : wheels.sections.Nodup := by
  induction wheels with
  | nil => exact List.nodup_singleton _
  | cons wheel wheels ih =>
    have ih := ih fun w hw => h w (List.mem_cons_of_mem _ hw)
    rw [List.sections, List.nodup_flatMap]
    refine ⟨fun current _ => ?_, ih.imp fun hne => ?_⟩
    · exact (h wheel List.mem_cons_self).map fun a b hab => (List.cons.inj hab).1
    · rintro c hc hc'
      obtain ⟨a, -, rfl⟩ := List.mem_map.mp hc
      obtain ⟨b, -, hb⟩ := List.mem_map.mp hc'
      exact hne (List.cons.inj hb).2.symm

theorem sections_cons_of_eq_cons (h : wheels.sections = current :: rest) (wheel : List α) :
    (wheel :: wheels).sections =
      wheel.map (· :: current) ++ rest.flatMap fun current => wheel.map (· :: current) := by
  rw [List.sections, h, List.flatMap_cons]

theorem inRange_start (h : ∀ wheel ∈ wheels, wheel ≠ []) : InRange wheels (wheels.map fun _ => 0) := by
  induction wheels with
  | nil => exact .nil
  | cons wheel wheels ih =>
    refine .cons (List.length_pos_iff.mpr (h wheel List.mem_cons_self)) ?_
    exact ih fun w hw => h w (List.mem_cons_of_mem _ hw)

theorem remaining_start (h : ∀ wheel ∈ wheels, wheel ≠ []) :
    remaining wheels (wheels.map fun _ => 0) = wheels.sections := by
  induction wheels with
  | nil => rfl
  | cons wheel wheels ih =>
    have hne (w) (hw : w ∈ wheels) := h w (List.mem_cons_of_mem _ hw)
    obtain ⟨current, rest, hsections⟩ := List.exists_cons_of_ne_nil (sections_ne_nil hne)
    rw [List.map_cons, remaining, ih hne, sections_cons_of_eq_cons hsections, hsections]
    rfl

theorem remaining_cons (hrem : remaining wheels poss = current :: rest) (wheel : List α) (pos : Nat) :
    remaining (wheel :: wheels) (pos :: poss) =
      (wheel.drop pos).map (· :: current) ++ rest.flatMap fun current => wheel.map (· :: current) := by
  rw [remaining, hrem]

theorem remaining_cons_of_lt (hrem : remaining wheels poss = current :: rest) {wheel : List α}
    {pos : Nat} (hpos : pos < wheel.length) : remaining (wheel :: wheels) (pos :: poss) =
      (wheel[pos] :: current) :: ((wheel.drop (pos + 1)).map (· :: current) ++
        rest.flatMap fun current => wheel.map (· :: current)) := by
  rw [remaining_cons hrem, List.drop_eq_getElem_cons hpos]
  rfl

/-- The current reading is the first of those that remain. -/
theorem exists_remaining (h : InRange wheels poss) :
    ∃ current rest, remaining wheels poss = current :: rest ∧ reading wheels poss = some current := by
  induction h with
  | nil => exact ⟨[], [], rfl, rfl⟩
  | @cons wheel pos wheels poss hpos _ ih =>
    obtain ⟨current, rest, hrem, hread⟩ := ih
    refine ⟨wheel[pos] :: current, _, remaining_cons_of_lt hrem hpos, ?_⟩
    rw [reading, List.getElem?_eq_getElem hpos, hread]
    rfl

theorem reading_of_remaining (h : InRange wheels poss) (hrem : remaining wheels poss = current :: rest) :
    reading wheels poss = some current := by
  obtain ⟨current', rest', hrem', hread⟩ := exists_remaining h
  rw [hrem] at hrem'
  rw [hread, (List.cons.inj hrem').1]

theorem InRange.advance (h : InRange wheels poss) : InRange wheels (advance wheels poss) := by
  induction h with
  | nil => exact .nil
  | @cons wheel pos wheels poss hpos hrest ih =>
    rw [Odometer.advance]
    by_cases hcarry : pos + 1 = wheel.length
    · rw [if_pos hcarry]
      exact .cons (by omega) ih
    · rw [if_neg hcarry]
      exact .cons (by omega) hrest

/-- A step goes to the next reading, or back to the first one after the last. -/
theorem remaining_advance (h : InRange wheels poss) (hrem : remaining wheels poss = current :: rest) :
    remaining wheels (advance wheels poss) = if rest = [] then wheels.sections else rest := by
  induction h generalizing current rest with
  | nil =>
    cases hrem
    rfl
  | @cons wheel pos wheels poss hpos hrest ih =>
    obtain ⟨current', rest', hrem', -⟩ := exists_remaining hrest
    have ih := ih hrem'
    rw [remaining_cons_of_lt hrem' hpos] at hrem
    obtain ⟨rfl, rfl⟩ := List.cons.inj hrem
    rw [advance]
    by_cases hcarry : pos + 1 = wheel.length
    · obtain ⟨next, rest'', hnext, -⟩ := exists_remaining (InRange.advance hrest)
      rw [if_pos hcarry, remaining_cons hnext, hcarry, List.drop_length, List.drop_zero,
        List.map_nil, List.nil_append]
      rw [hnext] at ih
      cases rest' with
      | nil =>
        rw [if_pos rfl] at ih
        rw [List.flatMap_nil, if_pos rfl, sections_cons_of_eq_cons ih.symm]
      | cons next' rest' =>
        rw [if_neg (List.cons_ne_nil _ _)] at ih
        obtain ⟨rfl, rfl⟩ := List.cons.inj ih
        have hne : wheel ≠ [] := List.length_pos_iff.mp (by omega)
        rw [if_neg (by simp [hne]), List.flatMap_cons]
    · have hlt : pos + 1 < wheel.length := by omega
      rw [if_neg hcarry, remaining_cons hrem', List.drop_eq_getElem_cons hlt, List.map_cons,
        List.cons_append, if_neg (List.cons_ne_nil _ _)]

theorem replaced_carry {wheel : List α} {pos : Nat} (h0 : 0 < wheel.length)
    (hpos : pos < wheel.length) (hcarry : pos + 1 = wheel.length) (wheels : List (List α)) (poss : List Nat) :
    replaced (wheel :: wheels) (pos :: poss) =
      (wheel[pos], wheel[0]) :: replaced wheels poss := by
  have hdrop : wheel.drop pos = [wheel[pos]] := by
    rw [List.drop_eq_getElem_cons hpos, hcarry, List.drop_length]
  rw [replaced, hdrop]
  cases wheel with
  | nil => cases hpos
  | cons a wheel => rfl

theorem replaced_of_lt {wheel : List α} {pos : Nat} (hpos : pos + 1 < wheel.length)
    (wheels : List (List α)) (poss : List Nat) :
    replaced (wheel :: wheels) (pos :: poss) = [(wheel[pos], wheel[pos + 1])] := by
  rw [replaced, List.drop_eq_getElem_cons (by omega), List.drop_eq_getElem_cons hpos]

/-- The step of this number leads to the reading of this number. -/
theorem remaining_iterate (h : ∀ wheel ∈ wheels, wheel ≠ []) {n : Nat} (hn : n < wheels.sections.length) :
    InRange wheels ((advance wheels)^[n] (wheels.map fun _ => 0)) ∧
      remaining wheels ((advance wheels)^[n] (wheels.map fun _ => 0)) = wheels.sections.drop n := by
  induction n with
  | zero => exact ⟨inRange_start h, remaining_start h⟩
  | succ n ih =>
    obtain ⟨hrange, hrem⟩ := ih (by omega)
    rw [List.drop_eq_getElem_cons (by omega)] at hrem
    have hne : wheels.sections.drop (n + 1) ≠ [] := by simpa [List.drop_eq_nil_iff] using hn
    rw [Function.iterate_succ_apply']
    refine ⟨hrange.advance, ?_⟩
    rw [remaining_advance hrange hrem, if_neg hne]

theorem remaining_suffix (h : InRange wheels poss) : remaining wheels poss <:+ wheels.sections := by
  induction h with
  | nil => exact List.suffix_refl _
  | @cons wheel pos wheels poss _ hrest ih =>
    obtain ⟨current, rest, hrem, -⟩ := exists_remaining hrest
    obtain ⟨before, hbefore⟩ := ih
    rw [hrem] at hbefore
    rw [remaining_cons hrem, List.sections, ← hbefore, List.flatMap_append, List.flatMap_cons]
    refine List.suffix_append_of_suffix ?_
    obtain ⟨front, hfront⟩ := (List.drop_suffix pos wheel).map (· :: current)
    exact ⟨front, by rw [← List.append_assoc, hfront]⟩

/-- Where the odometer is, is known from the number of readings that remain. -/
theorem eq_of_length_remaining_eq {poss' : List Nat} (h : InRange wheels poss)
    (h' : InRange wheels poss')
    (hl : (remaining wheels poss).length = (remaining wheels poss').length) : poss = poss' := by
  induction h generalizing poss' with
  | nil =>
    cases h'
    rfl
  | @cons wheel pos wheels poss hpos hrest ih =>
    cases h' with
    | @cons _ pos' _ poss' hpos' hrest' =>
      obtain ⟨current, rest, hrem, -⟩ := exists_remaining hrest
      obtain ⟨current', rest', hrem', -⟩ := exists_remaining hrest'
      have hcount (rest : List (List α)) :
          (rest.flatMap fun current => wheel.map (· :: current)).length = rest.length * wheel.length := by
        simp [List.length_flatMap]
      rw [remaining_cons hrem, remaining_cons hrem', List.length_append, List.length_append, hcount,
        hcount, List.length_map, List.length_map, List.length_drop, List.length_drop] at hl
      have hdigits : wheel.length - pos - 1 + rest.length * wheel.length =
          wheel.length - pos' - 1 + rest'.length * wheel.length := by omega
      have hmod := congrArg (· % wheel.length) hdigits
      have hdiv := congrArg (· / wheel.length) hdigits
      have hpositive : 0 < wheel.length := by omega
      simp only [Nat.add_mul_mod_self_right, Nat.add_mul_div_right _ _ hpositive] at hmod hdiv
      rw [Nat.mod_eq_of_lt (by omega), Nat.mod_eq_of_lt (by omega)] at hmod
      rw [Nat.div_eq_of_lt (by omega), Nat.div_eq_of_lt (by omega)] at hdiv
      have hrests : (remaining wheels poss).length = (remaining wheels poss').length := by
        rw [hrem, hrem', List.length_cons, List.length_cons]
        omega
      rw [ih hrest' hrests, show pos = pos' by omega]

end Odometer
