import IcnDemo.Block
import IcnDemo.Lib.SortedTable

/-!
# Link protocol packets

An `lp::Packet` is a sequence of elements: header fields and, behind them, the Fragment.  Fields
are looked up by their TLV-TYPE and added at the place their sort order gives them.  No field that
the code declares is repeatable.

`wireEncode` keeps the wire in the packet, and the fields are read from it later.  It copies as many
octets of an element as `Block::size` says, which returns a `uint32_t`, so an element of `2 ^ 32`
octets does not survive it.
-/

namespace IcnDemo.Lp

open Tlv

/-! ### Fields -/

namespace Field

/-- `lp::tlv::Fragment`. -/
def fragment : ℕ := 80

/-- `lp::tlv::Sequence`. -/
def sequence : ℕ := 81

/-- `lp::tlv::FragIndex`. -/
def fragIndex : ℕ := 82

/-- `lp::tlv::FragCount`. -/
def fragCount : ℕ := 83

/-- `lp::tlv::LpPacket`, the type of the packet as a whole. -/
def lpPacket : ℕ := 100

/-- `FieldInfo::locationSortOrder`: the Fragment stands behind every header. -/
def locationSortOrder (t : ℕ) : ℕ :=
  if t = fragment then 2 else 1

/-- `detail::compareFieldSortOrder`. -/
def compareSortOrder (first second : ℕ) : Bool :=
  decide (locationSortOrder first < locationSortOrder second) ||
    (decide (locationSortOrder first = locationSortOrder second) && decide (first < second))

end Field

open IcnDemo.Lp.Field

/-- `lp::Packet`. -/
structure Packet where
  elements : List Element
  deriving DecidableEq, Repr

/-- What can go wrong while a packet is built or read. -/
inductive Fault where
  /-- `tlv::Error`, which the receiving side of the link service catches. -/
  | tlvError
  /-- `std::out_of_range`: the field does not exist. -/
  | outOfRange
  /-- `std::length_error`: a field added twice, or a buffer too large to allocate. -/
  | lengthError
  /-- An access behind the end of a vector or a buffer. -/
  | overrun
  deriving DecidableEq, Repr

namespace Packet

/-- The packet of the default constructor. -/
def empty : Packet := ⟨[]⟩

/-- `Packet::has`. -/
def has (p : Packet) (t : ℕ) : Bool :=
  p.elements.any fun e => e.type == t

/-- The value of the element that `Packet::get` decodes. -/
def value (p : Packet) (t : ℕ) : Option (List UInt8) :=
  (p.elements.find? fun e => e.type == t).map Element.value

/-- `Packet::get` of a numeric field. -/
def getNumber (p : Packet) (t : ℕ) : Option UInt64 :=
  (p.value t).bind readNonNegativeInteger

/-- `Packet::get` of the Fragment. -/
def getFragment (p : Packet) : Except Fault (List UInt8) :=
  match p.value fragment with
  | none => .error .outOfRange
  | some [] => .error .tlvError
  | some v => .ok v

/-- `Packet::clear`. -/
def clear (p : Packet) (t : ℕ) : Packet :=
  ⟨p.elements.filter fun e => e.type != t⟩

/-- `m_wire.insert` at the `std::lower_bound` of the field's sort order. -/
def insert (p : Packet) (t : ℕ) (v : List UInt8) : Packet :=
  let pos := SortedTable.lowerBound (fun e => compareSortOrder e.type t) p.elements
  ⟨p.elements.take pos ++ ⟨t, v⟩ :: p.elements.drop pos⟩

/-- `Packet::add` of a field that is not repeatable. -/
def add (p : Packet) (t : ℕ) (v : List UInt8) : Except Fault Packet :=
  if p.has t then .error .lengthError else .ok (p.insert t v)

/-- `Packet::set`: after `clear` the field is absent, so that `add` does not throw. -/
def set (p : Packet) (t : ℕ) (v : List UInt8) : Packet :=
  (p.clear t).insert t v

/-- The sizes of the packet's elements, added up. -/
def elementsSize (p : Packet) : ℕ :=
  (p.elements.map Element.size).sum

/-- What `Packet::wireEncode` writes of the elements. -/
def encodedElements (p : Packet) : List UInt8 :=
  p.elements.flatMap fun e => Encoder.sizedWire (encodeElement e.type e.value)

/-- The length of the wire of `Packet::wireEncode`.  A packet of a Fragment only is sent as the bare
network packet that the Fragment holds. -/
def wireLength (p : Packet) : ℕ :=
  match p.elements with
  | [⟨80, v⟩] => v.length
  | _ => sizeOfVarNumber lpPacket + sizeOfVarNumber p.encodedElements.length +
      p.encodedElements.length

/-- The size of `Packet::wireEncode`, a `uint32_t`. -/
def wireSize (p : Packet) : ℕ :=
  p.wireLength % 2 ^ 32

/-- The packet after `Packet::wireEncode`: its elements are read from the wire that it has kept. -/
def encoded (p : Packet) : Except Fault Packet :=
  match p.elements with
  | [⟨80, _⟩] => .ok p
  | _ =>
    match Block.parse p.encodedElements with
    | none => .error .tlvError
    | some blocks => .ok ⟨blocks.map fun b => ⟨b.type, b.value⟩⟩

/-- The elements that are neither the Fragment nor part of fragmentation. -/
def headers (p : Packet) : List Element :=
  p.elements.filter fun e =>
    decide (e.type ∉ [fragment, sequence, fragIndex, fragCount])

/-! ### What the accessors see after a change -/

/-- A field is inserted at one place. -/
theorem exists_insert_eq (p : Packet) (t : ℕ) (v : List UInt8) :
    ∃ before after, p.elements = before ++ after ∧
      (p.insert t v).elements = before ++ ⟨t, v⟩ :: after :=
  ⟨_, _, (List.take_append_drop _ _).symm, rfl⟩

variable {t : ℕ} {p : Packet}

/-- A field is absent if no element has its type. -/
theorem has_eq_false_iff : p.has t = false ↔ ∀ e ∈ p.elements, e.type ≠ t := by
  simp [has]

/-- An absent field has no value. -/
theorem value_eq_none (h : p.has t = false) : p.value t = none := by
  rw [value, Option.map_eq_none_iff, List.find?_eq_none]
  intro e he
  simpa using has_eq_false_iff.mp h e he

@[simp] theorem has_insert (p : Packet) (t u : ℕ) (v : List UInt8) :
    (p.insert t v).has u = (t == u || p.has u) := by
  obtain ⟨before, after, hp, hi⟩ := p.exists_insert_eq t v
  grind [has]

@[simp] theorem has_clear (p : Packet) (t u : ℕ) : (p.clear t).has u = (t != u && p.has u) := by
  by_cases htu : t = u
  · subst htu
    simp [has, clear]
  have hany : ∀ l : List Element, (l.filter fun e => e.type != t).any (fun e => e.type == u) =
        l.any fun e => e.type == u := by
    intro l
    induction l with
    | nil => rfl
    | cons e l ih => grind
  simp [has, clear, hany, htu]

/-- An inserted field has its value. -/
theorem value_insert_self (h : p.has t = false) (v : List UInt8) :
    (p.insert t v).value t = some v := by
  obtain ⟨before, after, hp, hi⟩ := p.exists_insert_eq t v
  have hbefore : before.find? (fun e => e.type == t) = none := by grind [has_eq_false_iff]
  rw [value, hi, List.find?_append, hbefore]
  simp

/-- An inserted field leaves the others. -/
theorem value_insert_of_ne {t u : ℕ} (h : t ≠ u) (p : Packet) (v : List UInt8) :
    (p.insert t v).value u = p.value u := by
  obtain ⟨before, after, hp, hi⟩ := p.exists_insert_eq t v
  grind [value]

/-- A cleared field leaves the others. -/
theorem value_clear_of_ne {t u : ℕ} (h : t ≠ u) (p : Packet) : (p.clear t).value u = p.value u := by
  have hfind : ∀ l : List Element, (l.filter fun e => e.type != t).find? (fun e => e.type == u) =
        l.find? fun e => e.type == u := by
    intro l
    induction l with
    | nil => rfl
    | cons e l ih => grind
  rw [value, clear, hfind, value]

/-- A field that is set has its value. -/
@[simp] theorem value_set_self (p : Packet) (t : ℕ) (v : List UInt8) :
    (p.set t v).value t = some v := by
  rw [set]
  exact value_insert_self (by simp) v

/-- A field that is set leaves the others. -/
theorem value_set_of_ne {t u : ℕ} (h : t ≠ u) (p : Packet) (v : List UInt8) :
    (p.set t v).value u = p.value u := by
  rw [set, value_insert_of_ne h, value_clear_of_ne h]

/-! ### Headers and sizes -/

section

variable (h : t ∈ [fragment, sequence, fragIndex, fragCount])

include h

/-- A fragmentation field is no header, when inserted. -/
theorem headers_insert (p : Packet) (v : List UInt8) : (p.insert t v).headers = p.headers := by
  obtain ⟨before, after, hp, hi⟩ := p.exists_insert_eq t v
  grind [headers]

/-- A fragmentation field is no header, when cleared. -/
theorem headers_clear (p : Packet) : (p.clear t).headers = p.headers := by
  rw [headers, headers, clear, List.filter_filter]
  grind

/-- A fragmentation field is no header, when set. -/
theorem headers_set (p : Packet) (v : List UInt8) : (p.set t v).headers = p.headers := by
  rw [set, headers_insert h, headers_clear h]

end

/-- The size with one field more. -/
@[simp] theorem elementsSize_insert (p : Packet) (t : ℕ) (v : List UInt8) :
    (p.insert t v).elementsSize = p.elementsSize + (Element.mk t v).size := by
  obtain ⟨before, after, hp, hi⟩ := p.exists_insert_eq t v
  grind [elementsSize]

/-- The size with a field cleared. -/
theorem elementsSize_clear_le (p : Packet) (t : ℕ) : (p.clear t).elementsSize ≤ p.elementsSize := by
  rw [elementsSize, elementsSize, clear]
  exact (List.filter_sublist.map _).sum_le_sum fun _ _ => Nat.zero_le _

/-- The size of the other fields with one more. -/
theorem elementsSize_clear_insert {t u : ℕ} (h : t ≠ u) (p : Packet) (v : List UInt8) :
    ((p.insert t v).clear u).elementsSize = (p.clear u).elementsSize + (Element.mk t v).size := by
  obtain ⟨before, after, hp, hi⟩ := p.exists_insert_eq t v
  grind [elementsSize, clear]

/-- The size with a field set. -/
theorem elementsSize_set_le (p : Packet) (t : ℕ) (v : List UInt8) :
    (p.set t v).elementsSize ≤ p.elementsSize + (Element.mk t v).size := by
  have hclear := p.elementsSize_clear_le t
  rw [set, elementsSize_insert]
  omega

/-- At most the elements are written. -/
theorem length_encodedElements_le (p : Packet) : p.encodedElements.length ≤ p.elementsSize := by
  rw [encodedElements, List.length_flatMap, elementsSize]
  refine List.sum_le_sum fun e _ => ?_
  rw [Encoder.length_sizedWire, length_encodeElement]
  exact Nat.mod_le _ _

/-- The wire is longer than the elements by the header of the packet. -/
theorem wireLength_le (p : Packet) : p.wireLength ≤ 1 + 9 + p.elementsSize := by
  have hlength := p.length_encodedElements_le
  unfold wireLength
  split
  · rename_i v heq
    rw [elementsSize, heq]
    simp [Element.size]
    omega
  · grind [sizeOfVarNumber, lpPacket]

/-- The size on the wire. -/
theorem wireSize_le (p : Packet) : p.wireSize ≤ 1 + 9 + p.elementsSize :=
  (Nat.mod_le _ _).trans p.wireLength_le

/-- Each element is a part of the packet. -/
theorem size_le_elementsSize {e : Element} (he : e ∈ p.elements) : e.size ≤ p.elementsSize :=
  List.le_sum_of_mem (List.mem_map_of_mem he)

/-- An element and those that are left without its type are parts of the packet. -/
theorem elementsSize_clear_add_le {e : Element} (he : e ∈ p.elements) :
    (p.clear e.type).elementsSize + e.size ≤ p.elementsSize := by
  have hfilter : ∀ l : List Element, ((l.filter fun d => d.type != e.type).map Element.size).sum ≤
      (l.map Element.size).sum := fun l =>
    (List.filter_sublist.map _).sum_le_sum fun _ _ => Nat.zero_le _
  obtain ⟨before, after, hp⟩ := List.append_of_mem he
  have hbefore := hfilter before
  have hafter := hfilter after
  simp only [elementsSize, clear, hp, List.filter_append, List.map_append, List.sum_append,
    List.map_cons, List.sum_cons, List.filter_cons, bne_self_eq_false, Bool.false_eq_true,
    if_false]
  omega

/-- The types of the elements have 32 bits. -/
def Typed (p : Packet) : Prop :=
  ∀ e ∈ p.elements, e.type < 2 ^ 32

instance (p : Packet) : Decidable p.Typed :=
  inferInstanceAs (Decidable (∀ e ∈ p.elements, _))

/-- Types stay in range when a field is inserted. -/
theorem Typed.insert (h : p.Typed) (ht : t < 2 ^ 32) (v : List UInt8) : (p.insert t v).Typed := by
  obtain ⟨before, after, hp, hi⟩ := p.exists_insert_eq t v
  unfold Typed at *
  rw [hp] at h
  rw [hi]
  grind

/-- Types stay in range when a field is set. -/
theorem Typed.set (h : p.Typed) (ht : t < 2 ^ 32) (v : List UInt8) : (p.set t v).Typed := by
  have hclear : (p.clear t).Typed := fun e he => h e (List.mem_of_mem_filter he)
  exact hclear.insert ht v

/-- A packet that can be counted in 32 bits survives `wireEncode`. -/
theorem encoded_eq (htyped : p.Typed) (hsize : p.elementsSize < 2 ^ 32) : p.encoded = .ok p := by
  have hvalid : ∀ b ∈ p.elements.map fun e => Block.make e.type e.value, b.Valid := by
    intro b hb
    obtain ⟨e, he, rfl⟩ := List.mem_map.mp hb
    have hle := size_le_elementsSize he
    refine Block.valid_make (htyped e he) ?_
    unfold Element.size at hle
    omega
  have hwire : p.encodedElements =
      (p.elements.map fun e => Block.make e.type e.value).flatMap Block.wire := by
    rw [encodedElements, List.flatMap_map]
    refine List.flatMap_congr fun e he => Encoder.sizedWire_eq ?_
    rw [length_encodeElement]
    exact (size_le_elementsSize he).trans_lt hsize
  unfold encoded
  split
  · rfl
  · rw [hwire, Block.parse_flatMap hvalid]
    simp [Block.make, Function.comp_def]

/-- A packet with headers whose wire cannot be read. -/
theorem encoded_eq_error (hbare : ∀ v, p.elements ≠ [⟨80, v⟩])
    (h : Block.parse p.encodedElements = none) : p.encoded = .error .tlvError := by
  unfold encoded
  split
  · rename_i v heq
    exact absurd heq (hbare v)
  · rw [h]

end Packet

end IcnDemo.Lp
