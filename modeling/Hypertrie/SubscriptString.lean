import Hypertrie.Subscript

/-! Subscripts as strings. The parser numbers the characters in the order in which
they come, and it starts an operand only when it has a character to read for it. -/

namespace Hypertrie

namespace Subscript

def comma : Label := 44
def dash : Label := 45
def greater : Label := 62

/-- `operator std::string`. -/
def toString (sc : Subscript) : List Label :=
  List.intercalate [comma] sc.operands ++ [dash, greater] ++ sc.result

/-- `char_mapping` together with `next_label`. -/
structure CharMapping where
  entries : List (Label × Label)
  nextLabel : Label

namespace CharMapping

def empty : CharMapping := ⟨[], 97⟩

def has (m : CharMapping) (c : Label) : Bool := (m.entries.lookup c).isSome

/-- `char_mapping[c]`. A character without an entry is given the value 0. -/
def label (m : CharMapping) (c : Label) : Label := (m.entries.lookup c).getD 0

def add (m : CharMapping) (c : Label) : CharMapping :=
  if m.has c then m else ⟨(c, m.nextLabel) :: m.entries, m.nextLabel + 1⟩

def addAll (m : CharMapping) (cs : List Label) : CharMapping := cs.foldl add m

end CharMapping

/-- The labels of one operand. -/
def labelsLoop : List Label → CharMapping → List Label →
    Option (List Label × CharMapping × List Label)
  | [], _, _ => none
  | c :: iter, m, operandSc =>
    if c ≠ comma ∧ c ≠ dash then
      labelsLoop iter (m.add c) (operandSc ++ [(m.add c).label c])
    else some (c :: iter, m, operandSc)

def operandsLoop : Nat → List Label → CharMapping → List (List Label) →
    Option (List Label × CharMapping × List (List Label))
  | 0, _, _, _ => none
  | fuel + 1, iter, m, operandsSc =>
    if iter.head? = some dash then some (iter, m, operandsSc)
    else do
      let (iter, m, operandSc) ← labelsLoop iter m []
      if iter.head? = some dash then some (iter, m, operandsSc ++ [operandSc])
      else operandsLoop fuel iter.tail m (operandsSc ++ [operandSc])

def fromString (subscriptStr : List Label) : Option Subscript := do
  let (iter, m, operandsSc) ← operandsLoop (subscriptStr.length + 1) subscriptStr .empty []
  let operandsSc := if operandsSc = [] then [[]] else operandsSc
  if iter.length < 2 then none
  else some ⟨operandsSc, (iter.drop 2).map m.label⟩

namespace CharMapping

variable {m : CharMapping} {c d : Label}

theorem has_add (m : CharMapping) (c d : Label) : (m.add c).has d = true ↔ d = c ∨ m.has d = true := by
  rw [add]
  by_cases hc : m.has c = true
  · rw [if_pos hc]
    exact ⟨Or.inr, fun h => h.elim (fun he => he ▸ hc) id⟩
  · rw [if_neg hc]
    by_cases hd : d = c
    · simp [has, hd]
    · have hbeq : (d == c) = false := by simpa using hd
      simp [has, List.lookup_cons, hbeq, hd]

/-- What has a label keeps it. -/
theorem label_add (hd : m.has d = true) : (m.add c).label d = m.label d := by
  rw [add]
  by_cases hc : m.has c = true
  · rw [if_pos hc]
  · have hne : (d == c) = false := by
      have : d ≠ c := fun he => hc (he ▸ hd)
      simpa using this
    rw [if_neg hc, label, label, List.lookup_cons, hne]

theorem addAll_cons (m : CharMapping) (c : Label) (cs : List Label) :
    m.addAll (c :: cs) = (m.add c).addAll cs :=
  rfl

theorem has_addAll (m : CharMapping) (cs : List Label) (d : Label) :
    (m.addAll cs).has d = true ↔ d ∈ cs ∨ m.has d = true := by
  induction cs generalizing m with
  | nil => simp [addAll]
  | cons c cs ih =>
    rw [addAll_cons, ih, has_add, List.mem_cons]
    tauto

theorem label_addAll (hd : m.has d = true) (cs : List Label) : (m.addAll cs).label d = m.label d := by
  induction cs generalizing m with
  | nil => rfl
  | cons c cs ih =>
    rw [addAll_cons, ih ((has_add m c d).mpr (Or.inr hd)), label_add hd]

theorem addAll_append (m : CharMapping) (cs ds : List Label) :
    m.addAll (cs ++ ds) = (m.addAll cs).addAll ds :=
  List.foldl_append ..

theorem map_label_addAll {cs : List Label} (ds : List Label) :
    cs.map ((m.addAll (cs ++ ds)).label) = cs.map (m.addAll cs).label := by
  apply List.map_congr_left
  intro c hc
  rw [addAll_append, label_addAll ((has_addAll m cs c).mpr (Or.inl hc))]

/-- The labels given so far are the first ones from `a` on, one for each character. -/
structure Numbered (m : CharMapping) : Prop where
  nodup : (m.entries.map Prod.fst).Nodup
  labels : m.entries.map Prod.snd =
    (List.range m.entries.length).reverse.map (fun i => 97 + BitVec.ofNat 8 i)
  next : m.nextLabel = 97 + BitVec.ofNat 8 m.entries.length

theorem numbered_empty : Numbered empty := ⟨List.nodup_nil, rfl, rfl⟩

theorem Numbered.add (h : Numbered m) (c : Label) : Numbered (m.add c) := by
  rw [CharMapping.add]
  by_cases hc : m.has c = true
  · rw [if_pos hc]
    exact h
  · rw [if_neg hc]
    constructor
    · rw [List.map_cons, List.nodup_cons]
      refine ⟨fun hmem => hc ?_, h.nodup⟩
      obtain ⟨p, hp, rfl⟩ := List.mem_map.mp hmem
      rw [has, List.lookup_isSome_iff]
      exact ⟨p, hp, by simp⟩
    · simp [List.range_succ, h.labels, h.next]
    · rw [h.next, List.length_cons, BitVec.ofNat_add, ← BitVec.add_assoc]
      rfl

theorem Numbered.addAll (h : Numbered m) (cs : List Label) : Numbered (m.addAll cs) := by
  induction cs generalizing m with
  | nil => exact h
  | cons c cs ih => exact ih (h.add c)

theorem Numbered.nodup_labels (h : Numbered m) : (m.entries.map Prod.snd).Nodup := by
  have hle : m.entries.length ≤ posTypeCount := by
    rw [← List.length_map]
    exact length_le_of_nodup h.nodup
  rw [posTypeCount] at hle
  rw [h.labels]
  apply List.Nodup.map_on
  · intro i hi j hj hij
    have hi : i < m.entries.length := by simpa using hi
    have hj : j < m.entries.length := by simpa using hj
    have hmod := congrArg BitVec.toNat ((BitVec.add_right_inj _).mp hij)
    rw [BitVec.toNat_ofNat, BitVec.toNat_ofNat, Nat.mod_eq_of_lt (by omega),
      Nat.mod_eq_of_lt (by omega)] at hmod
    exact hmod
  · exact List.nodup_reverse.mpr List.nodup_range

theorem mem_of_has (h : m.has c = true) : (c, m.label c) ∈ m.entries := by
  rw [has] at h
  obtain ⟨l, hl⟩ := Option.isSome_iff_exists.mp h
  rw [label, hl]
  obtain ⟨l₁, l₂, he, -⟩ := List.lookup_eq_some_iff.mp hl
  simp [he]

theorem Numbered.label_injOn (h : Numbered m) : Set.InjOn m.label {c | m.has c = true} := by
  intro c hc d hd hlabel
  have hpair := List.inj_on_of_nodup_map h.nodup_labels (mem_of_has hc) (mem_of_has hd) hlabel
  exact congrArg Prod.fst hpair

end CharMapping

/-- The operands the parser starts: it does not start one in front of the dash. -/
def startedOperands : List (List Label) → List (List Label)
  | [] => []
  | [operand] => if operand = [] then [] else [operand]
  | operand :: next :: operands => operand :: startedOperands (next :: operands)

section Parse

variable {sc : Subscript} {m : CharMapping} {operand rest : List Label} {operands : List (List Label)}

/-- No separators among the labels. -/
def Clean (labels : List Label) : Prop := ∀ c ∈ labels, c ≠ comma ∧ c ≠ dash

theorem labelsLoop_spec (h : Clean operand) {d : Label} (hd : ¬(d ≠ comma ∧ d ≠ dash))
    (operandSc : List Label) : labelsLoop (operand ++ d :: rest) m operandSc =
      some (d :: rest, m.addAll operand, operandSc ++ operand.map (m.addAll operand).label) := by
  induction operand generalizing m operandSc with
  | nil =>
    rw [List.nil_append, labelsLoop, if_neg hd]
    simp [CharMapping.addAll]
  | cons c operand ih =>
    have hc : (m.add c).has c = true := (CharMapping.has_add m c c).mpr (Or.inl rfl)
    rw [List.cons_append, labelsLoop, if_pos (h c List.mem_cons_self),
      ih (fun c' hc' => h c' (List.mem_cons_of_mem _ hc')), CharMapping.addAll_cons, List.map_cons,
      CharMapping.label_addAll hc, List.append_assoc, List.singleton_append]

theorem head?_ne_dash (h : Clean operand) (hne : operand ≠ []) :
    (operand ++ rest).head? ≠ some dash := by
  cases operand with
  | nil => exact absurd rfl hne
  | cons c operand => simpa using (h c List.mem_cons_self).2

theorem operandsLoop_comma (h : Clean operand) (fuel : Nat) (operandsSc : List (List Label)) :
    operandsLoop (fuel + 1) (operand ++ comma :: rest) m operandsSc =
      operandsLoop fuel rest (m.addAll operand)
        (operandsSc ++ [operand.map (m.addAll operand).label]) := by
  have hhead : (operand ++ comma :: rest).head? ≠ some dash := by
    cases operand with
    | nil => simp [comma, dash]
    | cons c operand => exact head?_ne_dash h (List.cons_ne_nil _ _)
  rw [operandsLoop, if_neg hhead, labelsLoop_spec h (by decide)]
  simp [comma, dash]

theorem operandsLoop_dash (h : Clean operand) (fuel : Nat) (operandsSc : List (List Label)) :
    operandsLoop (fuel + 1) (operand ++ dash :: rest) m operandsSc =
      some (dash :: rest, m.addAll operand, operandsSc ++
        (startedOperands [operand]).map (·.map (m.addAll operand).label)) := by
  by_cases hop : operand = []
  · simp [hop, operandsLoop, startedOperands, CharMapping.addAll]
  · rw [operandsLoop, if_neg (head?_ne_dash h hop), labelsLoop_spec h (by decide)]
    simp [startedOperands, hop]

theorem length_startedOperands (operands : List (List Label)) (hne : operands ≠ []) :
    (startedOperands operands).length = operands.length ↔ operands.getLast? ≠ some [] := by
  induction operands using startedOperands.induct with
  | case1 => exact absurd rfl hne
  | case2 => simp [startedOperands]
  | case3 operand h => simp [startedOperands, h]
  | case4 operand next operands ih =>
    rw [startedOperands, List.length_cons, List.length_cons, Nat.add_right_cancel_iff,
      ih (List.cons_ne_nil _ _), List.getLast?_cons_cons]

theorem startedOperands_eq (operands : List (List Label)) (h : operands.getLast? ≠ some []) :
    startedOperands operands = operands := by
  induction operands using startedOperands.induct with
  | case1 => rfl
  | case2 => exact absurd rfl h
  | case3 operand h' => simp [startedOperands, h']
  | case4 operand next operands ih =>
    rw [startedOperands, ih (by rwa [List.getLast?_cons_cons] at h)]

theorem operandsLoop_spec (hne : operands ≠ []) (h : Clean operands.flatten) {fuel : Nat}
    (hfuel : (List.intercalate [comma] operands).length < fuel) (operandsSc : List (List Label)) :
    operandsLoop fuel (List.intercalate [comma] operands ++ dash :: rest) m operandsSc =
      some (dash :: rest, m.addAll operands.flatten,
        operandsSc ++ (startedOperands operands).map (·.map (m.addAll operands.flatten).label)) := by
  induction operands generalizing fuel m operandsSc with
  | nil => exact absurd rfl hne
  | cons operand operands ih =>
    obtain ⟨fuel, rfl⟩ := Nat.exists_eq_add_one_of_ne_zero (Nat.ne_zero_of_lt hfuel)
    have hclean : Clean operand := fun c hc => h c (List.mem_flatten_of_mem List.mem_cons_self hc)
    cases operands with
    | nil =>
      rw [List.intercalate_singleton, operandsLoop_dash hclean, List.flatten_singleton]
    | cons next operands =>
      have hrest : Clean (next :: operands).flatten := fun c hc => h c (by
        rw [List.flatten_cons]
        exact List.mem_append_right _ hc)
      rw [List.intercalate_cons_cons] at hfuel ⊢
      have hlt : (List.intercalate [comma] (next :: operands)).length < fuel := by
        simp only [List.length_append, List.length_singleton] at hfuel
        omega
      rw [List.append_assoc, List.append_assoc, List.singleton_append, operandsLoop_comma hclean,
        ih (List.cons_ne_nil _ _) hrest hlt, startedOperands, List.map_cons,
        List.flatten_cons (l := operand), CharMapping.map_label_addAll, CharMapping.addAll_append,
        List.append_assoc, List.singleton_append]

/-- What the parser makes of the string of a subscript. -/
theorem fromString_toString (hne : sc.operands ≠ []) (h : Clean sc.operands.flatten) :
    fromString sc.toString = some
      ⟨if startedOperands sc.operands = [] then [[]] else
        (startedOperands sc.operands).map
          (·.map (CharMapping.empty.addAll sc.operands.flatten).label),
        sc.result.map (CharMapping.empty.addAll sc.operands.flatten).label⟩ := by
  have hstring : sc.toString =
      List.intercalate [comma] sc.operands ++ dash :: (greater :: sc.result) := by
    simp [toString]
  have hlt : (List.intercalate [comma] sc.operands).length < sc.toString.length + 1 := by
    rw [hstring, List.length_append]
    omega
  have hloop := @operandsLoop_spec .empty (greater :: sc.result) _ hne h _ hlt []
  rw [← hstring] at hloop
  rw [fromString, hloop]
  simp

end Parse

/-- The same subscript up to the names of the labels. -/
def IsRenaming (sc sc' : Subscript) : Prop :=
  ∃ rename : Label → Label, Set.InjOn rename {label | label ∈ sc.operandsLabelSet} ∧
    sc'.operands = sc.operands.map (·.map rename) ∧ sc'.result = sc.result.map rename

theorem length_of_isRenaming {sc sc' : Subscript} (h : IsRenaming sc sc') :
    sc'.operands.length = sc.operands.length := by
  obtain ⟨rename, -, hop, -⟩ := h
  rw [hop, List.length_map]

/-- Printing and parsing gives the subscript back, unless its last operand is empty and follows
another one. -/
theorem fromString_toString_iff {sc : Subscript} (hne : sc.operands ≠ [])
    (hlabels : ∀ label ∈ sc.operandsLabelSet, label ≠ comma ∧ label ≠ dash) :
    (∃ sc', fromString sc.toString = some sc' ∧ IsRenaming sc sc') ↔
      sc.operands.length = 1 ∨ sc.operands.getLast? ≠ some [] := by
  have hclean : Clean sc.operands.flatten := fun c hc =>
    hlabels c (by simpa [operandsLabelSet] using hc)
  have hparse := fromString_toString hne hclean
  have hinj : Set.InjOn (CharMapping.empty.addAll sc.operands.flatten).label
      {label | label ∈ sc.operandsLabelSet} := by
    apply (CharMapping.numbered_empty.addAll sc.operands.flatten).label_injOn.mono
    intro label hlabel
    exact (CharMapping.has_addAll _ _ _).mpr (Or.inl (by simpa [operandsLabelSet] using hlabel))
  constructor
  · rintro ⟨sc', hsc', hrename⟩
    have hlength := length_of_isRenaming hrename
    rw [hparse, Option.some.injEq] at hsc'
    rw [← hsc'] at hlength
    by_cases hnil : startedOperands sc.operands = []
    · rw [if_pos hnil] at hlength
      exact Or.inl hlength.symm
    · rw [if_neg hnil, List.length_map] at hlength
      exact Or.inr ((length_startedOperands _ hne).mp hlength)
  · intro h
    refine ⟨_, hparse, _, hinj, ?_, rfl⟩
    by_cases hlast : sc.operands.getLast? = some []
    · obtain ⟨operand, hop⟩ := List.length_eq_one_iff.mp (h.resolve_right (not_not_intro hlast))
      have hempty : operand = [] := by simpa [hop] using hlast
      simp [hop, hempty, startedOperands]
    · rw [startedOperands_eq _ hlast, if_neg hne]

theorem fromString_toString_iff_three :
    (∃ sc', fromString (toString ⟨[[], [98, 99, 98], [100]], [99]⟩) = some sc' ∧
      IsRenaming ⟨[[], [98, 99, 98], [100]], [99]⟩ sc') ↔
      [[], [98, 99, 98], [100]].length = 1 ∨
        ([[], [98, 99, 98], [100]] : List (List Label)).getLast? ≠ some [] :=
  fromString_toString_iff (by decide) (by decide)

/-- What is printed for an operand and an empty one after it is read as one operand. -/
theorem fromString_drops_last :
    ¬∀ sc : Subscript, sc.operands ≠ [] →
      (∀ label ∈ sc.operandsLabelSet, label ≠ comma ∧ label ≠ dash) →
      (∀ label ∈ sc.result, label ∈ sc.operandsLabelSet) →
      ∃ sc', fromString sc.toString = some sc' ∧ IsRenaming sc sc' := by
  intro h
  obtain ⟨sc', hsc', hrename⟩ := h ⟨[[97], []], []⟩ (by decide) (by decide) (by decide)
  have hparse : fromString (toString ⟨[[97], []], []⟩) = some ⟨[[97]], []⟩ := by decide
  rw [hparse, Option.some.injEq] at hsc'
  have hlength := length_of_isRenaming hrename
  rw [← hsc'] at hlength
  cases hlength

end Subscript

end Hypertrie
