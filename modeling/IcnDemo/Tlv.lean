import IcnDemo.Lib.BigEndian

/-!
# Type-length-value elements

The numbers of the wire format (`tlv.hpp`): VAR-NUMBERs, which carry types and lengths, and
non-negative integers, which carry numeric values.  A `Block` made from a buffer keeps the first
element of the buffer.
-/

namespace IcnDemo.Tlv

open BigEndian

/-- `MAX_NDN_PACKET_SIZE`. -/
def maxNdnPacketSize : ℕ := 8800000

/-! ### Type numbers -/

/-- Packets and names. -/
def interest : ℕ := 5

def data : ℕ := 6

def name : ℕ := 7

/-- The parts of an Interest. -/
def selectors : ℕ := 9

def nonce : ℕ := 10

def interestLifetime : ℕ := 12

def minSuffixComponents : ℕ := 13

def maxSuffixComponents : ℕ := 14

def exclude : ℕ := 16

def childSelector : ℕ := 17

def mustBeFresh : ℕ := 18

def any : ℕ := 19

def selectedDelegation : ℕ := 32

/-- The parts of a Data. -/
def metaInfo : ℕ := 20

def content : ℕ := 21

def signatureInfo : ℕ := 22

def signatureValue : ℕ := 23

def contentType : ℕ := 24

def freshnessPeriod : ℕ := 25

def finalBlockId : ℕ := 26

def signatureType : ℕ := 27

def keyLocator : ℕ := 28

def keyDigest : ℕ := 29

def linkPreference : ℕ := 30

def linkDelegation : ℕ := 31

/-! ### Numbers -/

/-- `tlv::sizeOfVarNumber`. -/
def sizeOfVarNumber (n : ℕ) : ℕ :=
  if n < 253 then 1 else if n ≤ 65535 then 3 else if n ≤ 4294967295 then 5 else 9

/-- `tlv::readVarNumber`: the number and the bytes behind it, `none` when it throws. -/
def readVarNumber : List UInt8 → Option (ℕ × List UInt8)
  | [] => none
  | b :: rest =>
    if b.toNat < 253 then some (b.toNat, rest)
    else
      let k := if b.toNat = 253 then 2 else if b.toNat = 254 then 4 else 8
      if rest.length < k then none else some (ofBytes (rest.take k), rest.drop k)

variable (n : UInt64) (bs : List UInt8)

/-- `tlv::readType`: a VAR-NUMBER that fits in 32 bits. -/
def readType : Option (ℕ × List UInt8) :=
  match readVarNumber bs with
  | none => none
  | some (t, rest) => if t ≤ 4294967295 then some (t, rest) else none

/-- The bytes of `Block(buffer, maxlength)`: the first element of the buffer, `none` when the
constructor throws. -/
def readBlock : Option (List UInt8) :=
  match readType bs with
  | none => none
  | some (_, rest) =>
    match readVarNumber rest with
    | none => none
    | some (len, value) =>
      if value.length < len then none
      else some (bs.take (bs.length - value.length + len))

/-- The value written by `Encoder::prependNonNegativeInteger`. -/
def nonNegativeInteger : List UInt8 :=
  if n.toNat ≤ 255 then toBytes 1 n.toNat
  else if n.toNat ≤ 65535 then toBytes 2 n.toNat
  else if n.toNat ≤ 4294967295 then toBytes 4 n.toNat
  else toBytes 8 n.toNat

/-- `readNonNegativeInteger` of a block with this value, `none` when it throws. -/
def readNonNegativeInteger : Option UInt64 :=
  if bs.length ∈ [1, 2, 4, 8] then some (UInt64.ofNat (ofBytes bs)) else none

/-- An element: its TLV-TYPE and its TLV-VALUE. -/
structure Element where
  type : ℕ
  value : List UInt8
  deriving DecidableEq, Repr

/-- The size of an element on the wire. -/
def Element.size (e : Element) : ℕ :=
  sizeOfVarNumber e.type + sizeOfVarNumber e.value.length + e.value.length

/-- A number has at most 8 octets. -/
theorem length_nonNegativeInteger_le : (nonNegativeInteger n).length ≤ 8 := by
  unfold nonNegativeInteger
  split_ifs <;> simp

/-- An element with a number has at most 10 octets. -/
theorem size_nonNegativeInteger_le {t : ℕ} (ht : t < 253) (n : UInt64) :
    (Element.mk t (nonNegativeInteger n)).size ≤ 1 + 1 + 8 := by
  have hlen := length_nonNegativeInteger_le n
  grind [sizeOfVarNumber, Element.size]

/-- A number is read back. -/
@[simp] theorem readNonNegativeInteger_nonNegativeInteger :
    readNonNegativeInteger (nonNegativeInteger n) = some n := by
  have hn : n.toNat < 256 ^ 8 := n.toNat_lt
  have hread : ∀ k ∈ [1, 2, 4, 8], n.toNat < 256 ^ k →
      readNonNegativeInteger (toBytes k n.toNat) = some n := by
    intro k hk hlt
    rw [readNonNegativeInteger, length_toBytes, if_pos hk, ofBytes_toBytes hlt, UInt64.ofNat_toNat]
  grind [nonNegativeInteger]

/-- A block is read from something. -/
theorem ne_nil_of_readBlock {bs b : List UInt8} (h : readBlock bs = some b) : bs ≠ [] := by
  rintro rfl
  simp [readBlock, readType, readVarNumber] at h

/-! ### What a reader reads -/

/-- A VAR-NUMBER is read from some octets, whatever follows. -/
theorem readVarNumber_eq_some {bs rest : List UInt8} {n : ℕ}
    (h : readVarNumber bs = some (n, rest)) :
    ∃ octets, octets ≠ [] ∧ bs = octets ++ rest ∧
      ∀ more, readVarNumber (octets ++ more) = some (n, more) := by
  rcases bs with _ | ⟨b, bs⟩
  · cases h
  rw [readVarNumber] at h
  by_cases hb : b.toNat < 253
  · rw [if_pos hb] at h
    obtain ⟨rfl, rfl⟩ := Prod.mk.inj (Option.some.inj h)
    exact ⟨[b], by simp, rfl, fun more => by simp [readVarNumber, hb]⟩
  rw [if_neg hb] at h
  simp only at h
  generalize hk : (if b.toNat = 253 then 2 else if b.toNat = 254 then 4 else 8) = k at h
  by_cases hlength : bs.length < k
  · rw [if_pos hlength] at h
    cases h
  rw [if_neg hlength] at h
  obtain ⟨rfl, rfl⟩ := Prod.mk.inj (Option.some.inj h)
  have htake : (bs.take k).length = k := by
    rw [List.length_take]
    omega
  refine ⟨b :: bs.take k, by simp, by simp, fun more => ?_⟩
  grind [readVarNumber]

/-- A type is read from some octets, whatever follows. -/
theorem readType_eq_some {bs rest : List UInt8} {n : ℕ} (h : readType bs = some (n, rest)) :
    ∃ octets, octets ≠ [] ∧ bs = octets ++ rest ∧
      ∀ more, readType (octets ++ more) = some (n, more) := by
  grind [readType, readVarNumber_eq_some]

end IcnDemo.Tlv
