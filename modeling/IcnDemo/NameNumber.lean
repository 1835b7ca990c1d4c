import IcnDemo.NameOrder
import IcnDemo.Tlv

/-!
# Numbers in name components

Segment and version numbers are written behind a marker octet, in as many octets as the number
needs.  Components of segments are ordered like the numbers: a longer component is a larger one, and
in components of the same length the octets decide.
-/

namespace IcnDemo

namespace Component

/-- `SEGMENT_MARKER`. -/
def segmentMarker : UInt8 := 0x00

/-- `VERSION_MARKER`. -/
def versionMarker : UInt8 := 0xFD

variable (c : Component)

/-- `Component::fromNumberWithMarker`. -/
def fromNumberWithMarker (marker : UInt8) (n : UInt64) : Component :=
  .generic (marker :: Tlv.nonNegativeInteger n)

/-- `Component::isNumberWithMarker`. -/
def isNumberWithMarker (marker : UInt8) (c : Component) : Bool :=
  match c.value with
  | [] => false
  | b :: number => b == marker && decide (number.length ∈ [1, 2, 4, 8])

/-- `Component::toNumberWithMarker`, `none` when it throws. -/
def toNumberWithMarker (marker : UInt8) (c : Component) : Option UInt64 :=
  if c.isNumberWithMarker marker then Tlv.readNonNegativeInteger (c.value.drop 1) else none

/-- `Component::fromSegment`. -/
def fromSegment (segmentNo : UInt64) : Component :=
  fromNumberWithMarker segmentMarker segmentNo

/-- `Component::toSegment`, `none` when it throws. -/
def toSegment : Option UInt64 :=
  c.toNumberWithMarker segmentMarker

/-- `Component::fromVersion`. -/
def fromVersion (version : UInt64) : Component :=
  fromNumberWithMarker versionMarker version

/-- `Component::isVersion`. -/
def isVersion : Bool :=
  c.isNumberWithMarker versionMarker

end Component

namespace Tlv

open BigEndian

/-- The number of octets that a number is written in. -/
def width (n : UInt64) : ℕ :=
  if n.toNat ≤ 255 then 1 else if n.toNat ≤ 65535 then 2 else if n.toNat ≤ 4294967295 then 4 else 8

/-- A number has one of four lengths. -/
theorem width_mem (n : UInt64) : width n ∈ [1, 2, 4, 8] := by
  unfold width
  split_ifs <;> simp

/-- A number fits in its length. -/
theorem lt_pow_width (n : UInt64) : n.toNat < 256 ^ width n := by
  have hn : n.toNat < 256 ^ 8 := n.toNat_lt
  unfold width
  split_ifs <;> omega

/-- A number is written in its length. -/
theorem nonNegativeInteger_eq (n : UInt64) : nonNegativeInteger n = toBytes (width n) n.toNat := by
  unfold nonNegativeInteger width
  split_ifs <;> rfl

/-- A number of smaller length is smaller. -/
theorem lt_of_width_lt {m n : UInt64} (h : width m < width n) : m.toNat < n.toNat := by
  unfold width at h
  split_ifs at h <;> omega

/-- Numbers are ordered by length and octets. -/
theorem compare_nonNegativeInteger (m n : UInt64) :
    (Ord.compare (nonNegativeInteger m).length (nonNegativeInteger n).length).then
        (List.compareLex Ord.compare (nonNegativeInteger m) (nonNegativeInteger n)) =
      Ord.compare m.toNat n.toNat := by
  rw [nonNegativeInteger_eq, nonNegativeInteger_eq, length_toBytes, length_toBytes]
  rcases lt_trichotomy (width m) (width n) with hlt | heq | hgt
  · rw [compare_lt_iff_lt.mpr hlt, compare_lt_iff_lt.mpr (lt_of_width_lt hlt)]
    rfl
  · have hm := lt_pow_width m
    simp_all [lt_pow_width, compareLex_eq_compare, ofBytes_toBytes]
  · rw [compare_gt_iff_gt.mpr hgt, compare_gt_iff_gt.mpr (lt_of_width_lt hgt)]
    rfl

end Tlv

namespace Component

/-- A number with a marker is one. -/
theorem isNumberWithMarker_fromNumberWithMarker (marker : UInt8) (n : UInt64) :
    (fromNumberWithMarker marker n).isNumberWithMarker marker = true := by
  have hwidth := Tlv.width_mem n
  simpa [isNumberWithMarker, fromNumberWithMarker, generic, Tlv.nonNegativeInteger_eq] using hwidth

/-- A number with a marker is read back. -/
theorem toNumberWithMarker_fromNumberWithMarker (marker : UInt8) (n : UInt64) :
    (fromNumberWithMarker marker n).toNumberWithMarker marker = some n := by
  rw [toNumberWithMarker, isNumberWithMarker_fromNumberWithMarker, if_pos rfl]
  exact Tlv.readNonNegativeInteger_nonNegativeInteger n

/-- A segment number is read back. -/
@[simp] theorem toSegment_fromSegment (n : UInt64) : (fromSegment n).toSegment = some n :=
  toNumberWithMarker_fromNumberWithMarker _ n

@[simp] theorem empty_fromSegment (n : UInt64) : (fromSegment n).empty = false := rfl

/-- Segment components tell the numbers apart. -/
theorem fromSegment_injective {m n : UInt64} (h : fromSegment m = fromSegment n) : m = n := by
  have hread := toSegment_fromSegment m
  simp_all

/-- Segment components are in the order of the numbers. -/
theorem compare_fromSegment (m n : UInt64) :
    (fromSegment m).compare (fromSegment n) = Ord.compare m.toNat n.toNat := by
  have hlength : ∀ k : UInt64,
      (fromSegment k).value.length = (Tlv.nonNegativeInteger k).length + 1 := fun _ => rfl
  have hsucc : ∀ a b : ℕ, Ord.compare (a + 1) (b + 1) = Ord.compare a b := by
    simp_all [Ord.compare, compareOfLessAndEq]
  have hvalue : List.compareLex Ord.compare (fromSegment m).value (fromSegment n).value =
      List.compareLex Ord.compare (Tlv.nonNegativeInteger m) (Tlv.nonNegativeInteger n) :=
    ListLex.compareLex_cons_self _ _ _
  rw [Component.compare, hlength, hlength, hsucc, hvalue, Tlv.compare_nonNegativeInteger]
  rfl

end Component

end IcnDemo
