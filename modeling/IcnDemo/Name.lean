import IcnDemo.Lib.BigEndian

/-!
# Names and their components

A name is a sequence of components and a component is a TLV element: a type number
and a byte string.  Two of the comparisons of the library look at different parts of
a component.  `Component.equals` compares the bytes only, so a generic component and
an implicit digest with the same 32 bytes are equal for it; the wire form, and hence
every hash taken over it, contains the type as well.  `Name.equals` and
`Name.isPrefixOf` inherit the first behaviour.

The lemmas below reduce both comparisons to the lists of values, which is the form
used by the tables.
-/

namespace IcnDemo

/-- A name component: a TLV element with its type number and its value. -/
structure Component where
  type : ℕ
  value : List UInt8
deriving DecidableEq, Repr

/-- A name is the sequence of its components. -/
abbrev Name := List Component

namespace Tlv

/-- TLV type number of a generic name component. -/
def nameComponent : ℕ := 8

/-- TLV type number of an implicit SHA-256 digest component. -/
def implicitSha256DigestComponent : ℕ := 1

/-- The shortest form of a VAR-NUMBER. -/
def encodeVarNumber (v : ℕ) : List UInt8 :=
  if v < 253 then [UInt8.ofNat v]
  else if v ≤ 0xFFFF then 253 :: BigEndian.toBytes 2 v
  else if v ≤ 0xFFFFFFFF then 254 :: BigEndian.toBytes 4 v
  else 255 :: BigEndian.toBytes 8 v

/-- An element with its type and length in their shortest form. -/
def encodeElement (type : ℕ) (value : List UInt8) : List UInt8 :=
  encodeVarNumber type ++ encodeVarNumber value.length ++ value

end Tlv

namespace Component

/-- A generic component with the given bytes. -/
def generic (value : List UInt8) : Component :=
  ⟨Tlv.nameComponent, value⟩

/-- An implicit digest component with the given bytes. -/
def implicitDigest (value : List UInt8) : Component :=
  ⟨Tlv.implicitSha256DigestComponent, value⟩

/-- `Component::isGeneric`. -/
def isGeneric (c : Component) : Bool :=
  c.type == Tlv.nameComponent

/-- `Component::isImplicitSha256Digest`. -/
def isImplicitSha256Digest (c : Component) : Bool :=
  c.type == Tlv.implicitSha256DigestComponent && c.value.length == 32

/-- `Component::empty`. -/
def empty (c : Component) : Bool :=
  c.value.length == 0

/-- The wire form of a component: type, length and value. -/
def wire (c : Component) : List UInt8 :=
  Tlv.encodeElement c.type c.value

/-- `Component::equals` compares sizes and bytes and does not look at the type. -/
def equals (c d : Component) : Bool :=
  if c.value.length ≠ d.value.length then false
  else if c.value.length = 0 then true
  else c.value == d.value

/-- Components are compared by value. -/
@[simp] theorem equals_iff {c d : Component} : c.equals d = true ↔ c.value = d.value := by
  unfold equals
  grind

end Component

namespace Name

/-- `Name::getPrefix` for a non-negative number of components. -/
def getPrefix (n : Name) (k : ℕ) : Name :=
  n.take k

/-- The wire form of a name: an element of type 7 around its components. -/
def wire (n : Name) : List UInt8 :=
  Tlv.encodeElement 7 (n.flatMap Component.wire)

/-- The parent of a prefix. -/
theorem dropLast_take {n : Name} {i : ℕ} (hi : i ≤ n.length) :
    (n.take i).dropLast = n.take (i - 1) := by
  rw [List.dropLast_eq_take, List.take_take, List.length_take, min_eq_left hi,
    min_eq_left (Nat.sub_le i 1)]

/-- `Name::equals`: same number of components, pairwise equal. -/
def equals (n m : Name) : Bool :=
  n.length == m.length && (n.zip m).all fun p => p.1.equals p.2

/-- `Name::isPrefixOf`: no longer than the other name, pairwise equal so far. -/
def isPrefixOf (n m : Name) : Bool :=
  decide (n.length ≤ m.length) && (n.zip m).all fun p => p.1.equals p.2

/-- The byte strings of the components, without their types. -/
def values (n : Name) : List (List UInt8) :=
  n.map Component.value

@[simp] theorem values_nil : values [] = [] := rfl

/-- There are as many values as components. -/
@[simp] theorem length_values (n : Name) : (values n).length = n.length := by
  simp [values]

/-- The loop over two names compares the values. -/
theorem zip_all_equals_iff (n m : Name) (h : n.length ≤ m.length) :
    ((n.zip m).all fun p => p.1.equals p.2) = true ↔ values n <+: values m := by
  induction n generalizing m with
  | nil => simp
  | cons c n ih =>
    cases m with
    | nil => simp at h
    | cons d m => simp_all [values]

variable {n m : Name}

/-- Prefixes are by value. -/
theorem isPrefixOf_iff : isPrefixOf n m = true ↔ values n <+: values m := by
  unfold isPrefixOf
  by_cases h : n.length ≤ m.length
  · simpa [h] using zip_all_equals_iff n m h
  have hno : ¬ values n <+: values m := by
    intro hp
    have := hp.length_le
    simp at this
    exact h this
  simp [h, hno]

/-- Names are compared by value. -/
theorem equals_iff : equals n m = true ↔ values n = values m := by
  unfold equals
  by_cases h : n.length = m.length
  · have hall := zip_all_equals_iff n m h.le
    have heq : values n <+: values m ↔ values n = values m := by
      constructor
      · intro hp
        exact hp.eq_of_length (by simpa using h)
      · intro he
        rw [he]
    simp_all
  · have hno : values n ≠ values m := by
      intro he
      apply h
      simpa using congrArg List.length he
    simp [h, hno]

/-- A name equals itself. -/
@[simp] theorem equals_refl (n : Name) : equals n n = true :=
  equals_iff.mpr rfl

/-- The first components are a prefix. -/
theorem isPrefixOf_of_initial (h : n <+: m) : isPrefixOf n m = true :=
  isPrefixOf_iff.mpr (h.map Component.value)

/-- A prefix is not longer. -/
theorem length_le_of_isPrefixOf (h : isPrefixOf n m = true) : n.length ≤ m.length := by
  simpa using (isPrefixOf_iff.mp h).length_le

/-- The names that differ from `n` at most in the types of their components. -/
def SameValues (n m : Name) : Prop :=
  values n = values m

instance (n m : Name) : Decidable (SameValues n m) :=
  inferInstanceAs (Decidable (values n = values m))

end Name

end IcnDemo
