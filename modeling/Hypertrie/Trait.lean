import Mathlib

/-! Type parameters of a hypertrie and its entries. Keys are lists of key
parts whose length is the depth of the hypertrie they belong to. -/

namespace Hypertrie

/-- `value_type{}` and the key part `key_part_type{}` are the defaults of their types. -/
structure SingleEntry (K V : Type) where
  key : List K
  value : V
  deriving DecidableEq, Repr

/-- What the code reads of a `Hypertrie_t`. The entry hash is a parameter, and
so is the conversion of a value to `size_t` and back that reading by `Key`
goes through. Key parts are those a trait accepts: if they are taggable, their
tagging bit is not set. -/
structure HypertrieTrait (K V : Type) where
  isBoolValued : Bool
  keyPartTaggingBit : Option (Fin 64)
  zero : V
  one : V
  toWord : K → BitVec 64
  ofWord : BitVec 64 → K
  entryHash : SingleEntry K V → BitVec 64
  viaSizeT : V → V
  zero_ne_one : zero ≠ one
  bool_valued : isBoolValued = true → ∀ v, v = zero ∨ v = one
  viaSizeT_zero : viaSizeT zero = zero
  viaSizeT_one : viaSizeT one = one
  ofWord_toWord : ∀ k, ofWord (toWord k) = k
  tag_unset : ∀ b, keyPartTaggingBit = some b → ∀ k, (toWord k).getLsbD b = false

namespace HypertrieTrait

variable {K V : Type}

def taggableKeyPart (t : HypertrieTrait K V) : Bool := t.keyPartTaggingBit.isSome

/-- Position of the tag. -/
def tagPos (t : HypertrieTrait K V) : Fin 64 := t.keyPartTaggingBit.getD 63

/-- Single entries of this depth are stored in the identifier itself. -/
def inPlaceNode (t : HypertrieTrait K V) (depth : Nat) : Bool :=
  t.isBoolValued && t.taggableKeyPart && depth == 1

/-- A bool-valued entry does not store its value; it is always true. -/
def makeEntry (t : HypertrieTrait K V) (key : List K) (value : V) : SingleEntry K V :=
  ⟨key, if t.isBoolValued then t.one else value⟩

theorem eq_one_of_ne_zero {t : HypertrieTrait K V} (h : t.isBoolValued = true) {v : V}
    (hv : v ≠ t.zero) : v = t.one :=
  (t.bool_valued h v).resolve_left hv

theorem inPlaceNode_iff {t : HypertrieTrait K V} {depth : Nat} :
    t.inPlaceNode depth = true ↔
      t.isBoolValued = true ∧ t.taggableKeyPart = true ∧ depth = 1 := by
  simp [inPlaceNode, and_assoc]

theorem tag_unset_at {t : HypertrieTrait K V} (h : t.taggableKeyPart = true) (k : K) :
    (t.toWord k).getLsbD t.tagPos = false := by
  obtain ⟨b, hb⟩ := Option.isSome_iff_exists.mp h
  simpa [tagPos, hb] using t.tag_unset b hb k

theorem makeEntry_of_ne_zero (t : HypertrieTrait K V) (key : List K) {v : V} (hv : v ≠ t.zero) :
    t.makeEntry key v = ⟨key, v⟩ := by
  unfold makeEntry
  split
  next h => rw [eq_one_of_ne_zero h hv]
  next => rfl

end HypertrieTrait

section Defaults

/-- A hash of keys that takes their parts for digits. -/
def digitHash {K : Type} (toWord : K → BitVec 64) (key : List K) : BitVec 64 :=
  key.foldl (fun hash keyPart => 31 * hash + toWord keyPart + 1) 7

/-- `default_bool_Hypertrie_trait`, with a simple hash. -/
def defaultBoolTrait : HypertrieTrait (BitVec 64) Bool where
  isBoolValued := true
  keyPartTaggingBit := none
  zero := false
  one := true
  toWord := id
  ofWord := id
  entryHash e := digitHash id e.key
  viaSizeT := id
  zero_ne_one := Bool.false_ne_true
  bool_valued _ v := by cases v <;> simp
  viaSizeT_zero := rfl
  viaSizeT_one := rfl
  ofWord_toWord _ := rfl
  tag_unset _ h := by cases h

/-- The key parts that `tagged_bool_Hypertrie_trait` accepts. -/
abbrev TaggableWord := { word : BitVec 64 // word.getLsbD 63 = false }

/-- `tagged_bool_Hypertrie_trait`, with a simple hash. -/
def taggedBoolTrait : HypertrieTrait TaggableWord Bool where
  isBoolValued := true
  keyPartTaggingBit := some 63
  zero := false
  one := true
  toWord := Subtype.val
  ofWord word := if h : word.getLsbD 63 = false then ⟨word, h⟩ else ⟨0, by decide⟩
  entryHash e := digitHash Subtype.val e.key
  viaSizeT := id
  zero_ne_one := Bool.false_ne_true
  bool_valued _ v := by cases v <;> simp
  viaSizeT_zero := rfl
  viaSizeT_one := rfl
  ofWord_toWord k := dif_pos k.2
  tag_unset b hb k := by
    rw [Option.some.injEq] at hb
    rw [← hb]
    exact k.2

instance : Inhabited TaggableWord := ⟨⟨0, by decide⟩⟩

/-- `default_long_Hypertrie_trait`, with a simple hash. A `long` is a word; the conversion to `size_t`
and back is modulo 2 ^ 64. -/
def defaultLongTrait : HypertrieTrait (BitVec 64) (BitVec 64) where
  isBoolValued := false
  keyPartTaggingBit := none
  zero := 0
  one := 1
  toWord := id
  ofWord := id
  entryHash e := digitHash id (e.key ++ [e.value])
  viaSizeT v := BitVec.ofInt 64 v.toNat
  zero_ne_one := by decide
  bool_valued h := by cases h
  viaSizeT_zero := rfl
  viaSizeT_one := rfl
  ofWord_toWord _ := rfl
  tag_unset _ h := by cases h

theorem defaultLongTrait_viaSizeT (v : BitVec 64) : defaultLongTrait.viaSizeT v = v := by
  show BitVec.ofInt 64 v.toNat = v
  rw [BitVec.ofInt_natCast, BitVec.ofNat_toNat, BitVec.setWidth_eq]

/-- `default_double_Hypertrie_trait` on rational numbers, with a simple hash. The conversion to
`size_t` cuts off the fraction; it is undefined for values that do not fit. -/
def defaultDoubleTrait : HypertrieTrait (BitVec 64) Rat where
  isBoolValued := false
  keyPartTaggingBit := none
  zero := 0
  one := 1
  toWord := id
  ofWord := id
  entryHash e := digitHash id (e.key ++ [BitVec.ofInt 64 e.value.num, BitVec.ofNat 64 e.value.den])
  viaSizeT v := if 0 ≤ v ∧ v < 2 ^ 64 then v.floor else 0
  zero_ne_one := zero_ne_one
  bool_valued h := by cases h
  viaSizeT_zero := by decide +kernel
  viaSizeT_one := by decide +kernel
  ofWord_toWord _ := rfl
  tag_unset _ h := by cases h

/-- The conversion keeps exactly the integers that fit. -/
theorem defaultDoubleTrait_viaSizeT (v : Rat) :
    defaultDoubleTrait.viaSizeT v = v ↔ ∃ n : Nat, n < 2 ^ 64 ∧ v = n := by
  show (if 0 ≤ v ∧ v < 2 ^ 64 then (v.floor : Rat) else 0) = v ↔ _
  constructor
  · intro h
    by_cases hfits : 0 ≤ v ∧ v < 2 ^ 64
    · rw [if_pos hfits] at h
      have hfloor : 0 ≤ v.floor := by
        have hnonneg := h ▸ hfits.1
        exact_mod_cast hnonneg
      have hlt : v.floor < 2 ^ 64 := by
        have hlt := h ▸ hfits.2
        exact_mod_cast hlt
      obtain ⟨n, hn⟩ := Int.eq_ofNat_of_zero_le hfloor
      rw [hn] at h hlt
      exact ⟨n, by omega, by simpa using h.symm⟩
    · rw [if_neg hfits] at h
      exact ⟨0, by decide, by simpa using h.symm⟩
  · rintro ⟨n, hn, rfl⟩
    have hfits : (0 : Rat) ≤ n ∧ (n : Rat) < 2 ^ 64 := ⟨Nat.cast_nonneg n, by exact_mod_cast hn⟩
    rw [if_pos hfits, show (n : Rat) = ((n : Int) : Rat) from rfl, Rat.floor_intCast]

end Defaults

section Key

variable {K : Type}

/-- `RawKey::subkey`: the key without the part at `removePos`. -/
def subkey (key : List K) (removePos : Nat) : List K := key.eraseIdx removePos

/-- `key[pos]`; the default stands for a read past the end, which no caller makes. -/
def keyAt [Inhabited K] (key : List K) (pos : Nat) : K := key.getD pos default

theorem length_subkey {key : List K} {pos : Nat} (h : pos < key.length) :
    (subkey key pos).length = key.length - 1 := by
  simp [subkey, List.length_eraseIdx, h]

/-- A key is determined by one of its parts and the rest. -/
theorem key_ext [Inhabited K] {key key' : List K} {pos : Nat} (hl : key.length = key'.length)
    (hp : pos < key.length) (ha : keyAt key pos = keyAt key' pos)
    (hs : subkey key pos = subkey key' pos) : key = key' := by
  have hp' : pos < key'.length := hl ▸ hp
  have h := List.insertIdx_eraseIdx_getElem hp
  have h' := List.insertIdx_eraseIdx_getElem hp'
  simp only [keyAt, List.getD_eq_getElem?_getD, List.getElem?_eq_getElem hp,
    List.getElem?_eq_getElem hp', Option.getD_some] at ha
  unfold subkey at hs
  rw [← h, ← h', ha, hs]

end Key

end Hypertrie
