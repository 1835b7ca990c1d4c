import IcnDemo.Encoding.Encoder
import IcnDemo.Name
import IcnDemo.Tlv

/-!
# Writers and readers of numbers

There are two formats of numbers, and several functions for each: `tlv.hpp` writes to streams,
computes sizes, and reads from pointers and from streams; encoders prepend and append; estimators
compute sizes.  For VAR-NUMBERs they agree.  For non-negative integers the functions of `tlv.hpp`
change from one octet to two at 253, as VAR-NUMBERs do, and encoders and estimators at 256.
-/

namespace IcnDemo

open BigEndian

namespace Tlv

/-! ### Streams -/

/-- `tlv::writeVarNumber`: the stream, and the size that is returned. -/
def writeVarNumber (os : List UInt8) (n : UInt64) : List UInt8 × ℕ :=
  if n < 253 then (os ++ [n.toUInt8], 1)
  else if n ≤ 0xFFFF then (os ++ [253] ++ toBytes 2 n.toUInt16.toNat, 3)
  else if n ≤ 0xFFFFFFFF then (os ++ [254] ++ toBytes 4 n.toUInt32.toNat, 5)
  else (os ++ [255] ++ toBytes 8 n.toNat, 9)

/-- `tlv::writeNonNegativeInteger`. -/
def writeNonNegativeInteger (os : List UInt8) (n : UInt64) : List UInt8 × ℕ :=
  if n < 253 then (os ++ [n.toUInt8], 1)
  else if n ≤ 0xFFFF then (os ++ toBytes 2 n.toUInt16.toNat, 2)
  else if n ≤ 0xFFFFFFFF then (os ++ toBytes 4 n.toUInt32.toNat, 4)
  else (os ++ toBytes 8 n.toNat, 8)

/-- `tlv::sizeOfNonNegativeInteger`. -/
def sizeOfNonNegativeInteger (n : UInt64) : ℕ :=
  if n < 253 then 1 else if n ≤ 0xFFFF then 2 else if n ≤ 0xFFFFFFFF then 4 else 8

/-- What the throwing readers throw. -/
inductive ReadError where
  /-- "Empty buffer during TLV processing" -/
  | emptyBuffer
  /-- "Insufficient data during TLV processing" -/
  | insufficientData
  /-- "Invalid length for nonNegativeInteger (only 1, 2, 4, and 8 are allowed)" -/
  | invalidLength
deriving DecidableEq, Repr

/-- The loop of the readers from streams: at most `k` octets are shifted into the value.  The value,
the number of octets and the rest. -/
def streamLoop : ℕ → UInt64 → List UInt8 → UInt64 × ℕ × List UInt8
  | 0, value, bs => (value, 0, bs)
  | _ + 1, value, [] => (value, 0, [])
  | k + 1, value, b :: bs =>
    let r := streamLoop k ((value <<< 8) ||| b.toUInt64) bs
    (r.1, r.2.1 + 1, r.2.2)

/-- `k` octets from a stream, `none` when there are fewer. -/
def readOctets (k : ℕ) (bs : List UInt8) : Option (UInt64 × List UInt8) :=
  let r := streamLoop k 0 bs
  if r.2.1 ≠ k then none else some (r.1, r.2.2)

/-- `tlv::readVarNumber` from pointers, `none` when it returns false. -/
def readVarNumberFromPointer (bs : List UInt8) : Option (UInt64 × List UInt8) :=
  (readVarNumber bs).map fun r => (UInt64.ofNat r.1, r.2)

/-- `tlv::readVarNumber` from streams, `none` when it returns false. -/
def readVarNumberFromStream : List UInt8 → Option (UInt64 × List UInt8)
  | [] => none
  | b :: bs =>
    if b < 253 then some (b.toUInt64, bs)
    else if b = 253 then readOctets 2 bs
    else if b = 254 then readOctets 4 bs
    else readOctets 8 bs

/-- The throwing `tlv::readVarNumber`, over a reader that returns false. -/
def readVarNumberOrThrow (read : List UInt8 → Option (UInt64 × List UInt8)) (bs : List UInt8) :
    Except ReadError (UInt64 × List UInt8) :=
  if bs.isEmpty then .error .emptyBuffer
  else
    match read bs with
    | none => .error .insufficientData
    | some r => .ok r

/-- `tlv::readNonNegativeInteger` from pointers. -/
def readNonNegativeIntegerFromPointer (size : ℕ) (bs : List UInt8) :
    Except ReadError (UInt64 × List UInt8) :=
  if size ∈ [1, 2, 4, 8] then
    if bs.length < size then .error .insufficientData
    else .ok (UInt64.ofNat (ofBytes (bs.take size)), bs.drop size)
  else .error .invalidLength

/-- `tlv::readNonNegativeInteger` from streams. -/
def readNonNegativeIntegerFromStream (size : ℕ) (bs : List UInt8) :
    Except ReadError (UInt64 × List UInt8) :=
  if size = 1 then
    match bs with
    | [] => .error .insufficientData
    | b :: bs => .ok (b.toUInt64, bs)
  else if size ∈ [2, 4, 8] then
    match readOctets size bs with
    | none => .error .insufficientData
    | some r => .ok r
  else .error .invalidLength

end Tlv

/-! ### Encoders and estimators -/

namespace Encoder

variable {σ : Type} [ByteWriter σ] (n : UInt64) (e : σ)

/-- `Encoder::prependVarNumber`, with the size that it returns. -/
def prependVarNumber : σ × ℕ :=
  if n < 253 then (ByteWriter.prependByteArray [n.toUInt8] e, 1)
  else if n ≤ 0xFFFF then
    (ByteWriter.prependByteArray [253]
      (ByteWriter.prependByteArray (toBytes 2 n.toUInt16.toNat) e), 3)
  else if n ≤ 0xFFFFFFFF then
    (ByteWriter.prependByteArray [254]
      (ByteWriter.prependByteArray (toBytes 4 n.toUInt32.toNat) e), 5)
  else
    (ByteWriter.prependByteArray [255] (ByteWriter.prependByteArray (toBytes 8 n.toNat) e), 9)

/-- `Encoder::appendVarNumber`. -/
def appendVarNumber : σ × ℕ :=
  if n < 253 then (ByteWriter.appendByteArray [n.toUInt8] e, 1)
  else if n ≤ 0xFFFF then
    (ByteWriter.appendByteArray (toBytes 2 n.toUInt16.toNat)
      (ByteWriter.appendByteArray [253] e), 3)
  else if n ≤ 0xFFFFFFFF then
    (ByteWriter.appendByteArray (toBytes 4 n.toUInt32.toNat)
      (ByteWriter.appendByteArray [254] e), 5)
  else (ByteWriter.appendByteArray (toBytes 8 n.toNat) (ByteWriter.appendByteArray [255] e), 9)

/-- `Encoder::prependNonNegativeInteger`. -/
def prependNonNegativeInteger : σ × ℕ :=
  if n ≤ 0xFF then (ByteWriter.prependByteArray [n.toUInt8] e, 1)
  else if n ≤ 0xFFFF then (ByteWriter.prependByteArray (toBytes 2 n.toUInt16.toNat) e, 2)
  else if n ≤ 0xFFFFFFFF then (ByteWriter.prependByteArray (toBytes 4 n.toUInt32.toNat) e, 4)
  else (ByteWriter.prependByteArray (toBytes 8 n.toNat) e, 8)

/-- `Encoder::appendNonNegativeInteger`. -/
def appendNonNegativeInteger : σ × ℕ :=
  if n ≤ 0xFF then (ByteWriter.appendByteArray [n.toUInt8] e, 1)
  else if n ≤ 0xFFFF then (ByteWriter.appendByteArray (toBytes 2 n.toUInt16.toNat) e, 2)
  else if n ≤ 0xFFFFFFFF then (ByteWriter.appendByteArray (toBytes 4 n.toUInt32.toNat) e, 4)
  else (ByteWriter.appendByteArray (toBytes 8 n.toNat) e, 8)

variable (type : UInt32) (array : List UInt8) (wire : Option (List UInt8))

/-- `Encoder::prependByteArrayBlock`. -/
def prependByteArrayBlock : σ × ℕ :=
  let r := prependVarNumber (.ofNat array.length) (ByteWriter.prependByteArray array e)
  let s := prependVarNumber type.toUInt64 r.1
  (s.1, array.length + r.2 + s.2)

/-- `Encoder::appendByteArrayBlock`. -/
def appendByteArrayBlock : σ × ℕ :=
  let r := appendVarNumber type.toUInt64 e
  let s := appendVarNumber (.ofNat array.length) r.1
  (ByteWriter.appendByteArray array s.1, r.2 + s.2 + array.length)

/-- The octets that are copied of the wire of a block, which are as many as `Block::size` says.  It
returns a `uint32_t`. -/
def sizedWire (wire : List UInt8) : List UInt8 :=
  wire.take (wire.length % 2 ^ 32)

/-- `Encoder::prependBlock` of a block with this wire, if it has one, and with this type and
value. -/
def prependBlock : σ × ℕ :=
  match wire with
  | some wire => (ByteWriter.prependByteArray (sizedWire wire) e, (sizedWire wire).length)
  | none => prependByteArrayBlock e type array

/-- `Encoder::appendBlock`. -/
def appendBlock : σ × ℕ :=
  match wire with
  | some wire => (ByteWriter.appendByteArray (sizedWire wire) e, (sizedWire wire).length)
  | none => appendByteArrayBlock e type array

/-- A wire that can be counted in 32 bits is copied as a whole. -/
theorem sizedWire_eq {wire : List UInt8} (h : wire.length < 2 ^ 32) : sizedWire wire = wire := by
  rw [sizedWire, Nat.mod_eq_of_lt h, List.take_length]

/-- Of a longer wire octets are lost. -/
theorem length_sizedWire (wire : List UInt8) :
    (sizedWire wire).length = wire.length % 2 ^ 32 := by
  rw [sizedWire, List.length_take, min_eq_left (Nat.mod_le _ _)]

/-- A Content element of `2 ^ 32` octets. -/
def largeWire : List UInt8 :=
  Tlv.encodeElement 21 (List.replicate (2 ^ 32 - 6) 0)

/-- Its header has six octets. -/
theorem length_largeWire : largeWire.length = 2 ^ 32 := by
  rw [largeWire, Tlv.encodeElement, List.length_append, List.length_append, List.length_replicate]
  decide

/-- Nothing of it is copied. -/
theorem sizedWire_largeWire : sizedWire largeWire = [] := by
  rw [← List.length_eq_zero_iff, length_sizedWire, length_largeWire, Nat.mod_self]

end Encoder

namespace Estimator

/-- `Estimator::prependVarNumber`. -/
def prependVarNumber (n : UInt64) : ℕ :=
  if n < 253 then 1 else if n ≤ 0xFFFF then 3 else if n ≤ 0xFFFFFFFF then 5 else 9

/-- `Estimator::appendVarNumber`. -/
def appendVarNumber (n : UInt64) : ℕ :=
  prependVarNumber n

/-- `Estimator::prependNonNegativeInteger`. -/
def prependNonNegativeInteger (n : UInt64) : ℕ :=
  if n ≤ 0xFF then 1 else if n ≤ 0xFFFF then 2 else if n ≤ 0xFFFFFFFF then 4 else 8

/-- `Estimator::appendNonNegativeInteger`. -/
def appendNonNegativeInteger (n : UInt64) : ℕ :=
  prependNonNegativeInteger n

end Estimator

open Estimator

/-! ### Agreement -/

/-- The writers produce these octets and return their number, the sizes are this number, and the
readers read the number back from these octets, whatever follows. -/
def AgreeOn (octets : List UInt8) (n : UInt64) (write : List UInt8 → List UInt8 × ℕ)
    (prepend append : Encoder → Encoder × ℕ) (sizes : List ℕ)
    (readers : List (ℕ → List UInt8 → Option (UInt64 × List UInt8))) : Prop :=
  (∀ os, write os = (os ++ octets, octets.length)) ∧
    (∀ e, (prepend e).1.contents = octets ++ e.contents ∧ (prepend e).2 = octets.length) ∧
    (∀ e, (append e).1.contents = e.contents ++ octets ∧ (append e).2 = octets.length) ∧
    (∀ size ∈ sizes, size = octets.length) ∧
    ∀ read ∈ readers, ∀ rest, read octets.length (octets ++ rest) = some (n, rest)

/-- The functions for VAR-NUMBERs agree on a number. -/
def VarNumberAgree (n : UInt64) : Prop :=
  ∃ octets, AgreeOn octets n (Tlv.writeVarNumber · n) (Encoder.prependVarNumber n)
    (Encoder.appendVarNumber n)
    [Tlv.sizeOfVarNumber n.toNat, prependVarNumber n, appendVarNumber n]
    [fun _ => Tlv.readVarNumberFromPointer, fun _ => Tlv.readVarNumberFromStream,
      fun _ bs => (Tlv.readVarNumberOrThrow Tlv.readVarNumberFromPointer bs).toOption,
      fun _ bs => (Tlv.readVarNumberOrThrow Tlv.readVarNumberFromStream bs).toOption]

/-- The functions for non-negative integers agree on a number. -/
def NonNegativeIntegerAgree (n : UInt64) : Prop :=
  ∃ octets, AgreeOn octets n (Tlv.writeNonNegativeInteger · n) (Encoder.prependNonNegativeInteger n)
    (Encoder.appendNonNegativeInteger n)
    [Tlv.sizeOfNonNegativeInteger n, prependNonNegativeInteger n,
      appendNonNegativeInteger n]
    [fun size bs => (Tlv.readNonNegativeIntegerFromPointer size bs).toOption,
      fun size bs => (Tlv.readNonNegativeIntegerFromStream size bs).toOption]

namespace Tlv

/-- Shifting in one octet. -/
theorem toNat_shift_or (value : UInt64) (b : UInt8) (h : value.toNat < 2 ^ 56) :
    ((value <<< 8) ||| b.toUInt64).toNat = 256 * value.toNat + b.toNat := by
  have hb : b.toNat < 2 ^ 8 := b.toNat_lt
  have hor := Nat.two_pow_add_eq_or_of_lt hb value.toNat
  grind [UInt64.toNat_or, UInt64.toNat_shiftLeft, UInt8.toNat_toUInt64, Nat.shiftLeft_eq]

/-- The loop over a stream reads the octets as one number. -/
theorem streamLoop_append (octets rest : List UInt8) (value : UInt64)
    (h : value.toNat * 256 ^ octets.length + ofBytes octets < 2 ^ 64) :
    streamLoop octets.length value (octets ++ rest) =
      (UInt64.ofNat (value.toNat * 256 ^ octets.length + ofBytes octets), octets.length, rest) := by
  induction octets generalizing value with
  | nil => simp [streamLoop, ofBytes]
  | cons b bs ih =>
    have hpos : 0 < 256 ^ bs.length := Nat.pow_pos (by decide)
    rw [List.length_cons, pow_succ, ofBytes_cons] at h
    have hroom : value.toNat < 2 ^ 56 := by nlinarith
    have hvalue := toNat_shift_or value b hroom
    have hsum : (256 * value.toNat + b.toNat) * 256 ^ bs.length + ofBytes bs
        = value.toNat * 256 ^ (b :: bs).length + ofBytes (b :: bs) := by
      rw [List.length_cons, pow_succ, ofBytes_cons]
      ring
    grind [streamLoop]

variable {n : UInt64}

/-- Octets of a number are read back. -/
theorem readOctets_toBytes {k : ℕ} (hk : n.toNat < 256 ^ k) (rest : List UInt8) :
    readOctets k (toBytes k n.toNat ++ rest) = some (n, rest) := by
  have hloop := streamLoop_append (toBytes k n.toNat) rest 0
    (by rw [ofBytes_toBytes hk]; simpa using n.toNat_lt)
  rw [length_toBytes, ofBytes_toBytes hk] at hloop
  unfold readOctets
  rw [hloop]
  simp

/-- A number of one octet. -/
theorem toBytes_one (n : UInt64) : [n.toUInt8] = toBytes 1 n.toNat := by
  simp only [toBytes, List.nil_append, List.cons.injEq, and_true]
  exact UInt8.toNat_inj.mp (by simp)

/-- A number behind its lead octet is read back. -/
theorem readVarNumber_toBytes {lead : UInt8} {k n : ℕ} (hlead : ¬ lead.toNat < 253)
    (hsize : (if lead.toNat = 253 then 2 else if lead.toNat = 254 then 4 else 8) = k)
    (hk : n < 256 ^ k) (rest : List UInt8) :
    readVarNumber (lead :: toBytes k n ++ rest) = some (n, rest) := by
  have hlength : (toBytes k n).length = k := length_toBytes k n
  grind [readVarNumber, ofBytes_toBytes]

/-- A VAR-NUMBER is read back. -/
theorem readVarNumber_encodeVarNumber {n : ℕ} (hn : n < 2 ^ 64) (rest : List UInt8) :
    readVarNumber (encodeVarNumber n ++ rest) = some (n, rest) := by
  unfold encodeVarNumber
  grind [UInt8.toNat_ofNat', readVarNumber, readVarNumber_toBytes]

/-- A number of one of the four lengths is read back in both ways. -/
theorem readNonNegativeInteger_toBytes {k : ℕ} (hsize : k ∈ [1, 2, 4, 8])
    (hk : n.toNat < 256 ^ k) (rest : List UInt8) :
    (readNonNegativeIntegerFromPointer k (toBytes k n.toNat ++ rest)).toOption = some (n, rest) ∧
      (readNonNegativeIntegerFromStream k (toBytes k n.toNat ++ rest)).toOption
        = some (n, rest) := by
  have hlength : (toBytes k n.toNat).length = k := length_toBytes k n.toNat
  constructor
  · simp_all [readNonNegativeIntegerFromPointer, ofBytes_toBytes, Except.toOption]
  unfold readNonNegativeIntegerFromStream
  by_cases hone : k = 1
  · subst hone
    have hback : n.toUInt8.toUInt64 = n := UInt64.toNat_inj.mp (by
      rw [UInt8.toNat_toUInt64, UInt64.toNat_toUInt8]
      omega)
    rw [if_pos rfl, ← toBytes_one]
    simp [Except.toOption, hback]
  · have hmore : k ∈ [2, 4, 8] := (List.mem_cons.mp hsize).resolve_left hone
    rw [if_neg hone, if_pos hmore, readOctets_toBytes hk]
    rfl

/-! ### The ranges of a number -/

/-- The comparisons of 64-bit numbers as those of numbers. -/
theorem ranges (n : UInt64) :
    (n < 253 ↔ n.toNat < 253) ∧ (n ≤ 0xFF ↔ n.toNat ≤ 255) ∧ (n ≤ 0xFFFF ↔ n.toNat ≤ 65535) ∧
      (n ≤ 0xFFFFFFFF ↔ n.toNat ≤ 4294967295) := by
  simp only [UInt64.lt_iff_toNat_lt, UInt64.le_iff_toNat_le]
  exact ⟨Iff.rfl, Iff.rfl, Iff.rfl, Iff.rfl⟩

/-- A cut to 16 bits keeps the numbers that fit. -/
theorem toNat_toUInt16_of_le (h : n.toNat ≤ 65535) : n.toUInt16.toNat = n.toNat := by
  rw [UInt64.toNat_toUInt16]
  omega

/-- A cut to 32 bits keeps the numbers that fit. -/
theorem toNat_toUInt32_of_le (h : n.toNat ≤ 4294967295) : n.toUInt32.toNat = n.toNat := by
  rw [UInt64.toNat_toUInt32]
  omega

/-- The four forms with the comparisons of the code. -/
theorem encodeVarNumber_eq_ite (n : UInt64) : encodeVarNumber n.toNat =
    if n < 253 then [n.toUInt8] else if n ≤ 0xFFFF then 253 :: toBytes 2 n.toUInt16.toNat
    else if n ≤ 0xFFFFFFFF then 254 :: toBytes 4 n.toUInt32.toNat
    else 255 :: toBytes 8 n.toNat := by
  obtain ⟨h1, -, h2, h4⟩ := ranges n
  unfold encodeVarNumber
  simp only [h1, h2, h4]
  by_cases c1 : n.toNat < 253
  · rw [if_pos c1, if_pos c1, toBytes_one]
    rfl
  grind [toNat_toUInt16_of_le, toNat_toUInt32_of_le]

/-- The four lengths with the comparisons of the code. -/
theorem nonNegativeInteger_eq_ite (n : UInt64) : nonNegativeInteger n =
    if n ≤ 0xFF then [n.toUInt8] else if n ≤ 0xFFFF then toBytes 2 n.toUInt16.toNat
    else if n ≤ 0xFFFFFFFF then toBytes 4 n.toUInt32.toNat else toBytes 8 n.toNat := by
  obtain ⟨-, h1, h2, h4⟩ := ranges n
  unfold nonNegativeInteger
  grind [toBytes_one, toNat_toUInt16_of_le, toNat_toUInt32_of_le]

/-! ### VAR-NUMBERs -/

/-- `writeVarNumber` writes the VAR-NUMBER. -/
theorem writeVarNumber_eq (os : List UInt8) (n : UInt64) : writeVarNumber os n
      = (os ++ encodeVarNumber n.toNat, (encodeVarNumber n.toNat).length) := by
  rw [encodeVarNumber_eq_ite]
  unfold writeVarNumber
  split_ifs <;> simp

/-- `prependVarNumber` writes the VAR-NUMBER in front. -/
theorem prependVarNumber_spec (n : UInt64) (e : Encoder) :
    (Encoder.prependVarNumber n e).1.contents = encodeVarNumber n.toNat ++ e.contents ∧
      (Encoder.prependVarNumber n e).2 = (encodeVarNumber n.toNat).length := by
  rw [encodeVarNumber_eq_ite]
  unfold Encoder.prependVarNumber
  split_ifs <;> simp

/-- `appendVarNumber` writes the VAR-NUMBER behind. -/
theorem appendVarNumber_spec (n : UInt64) (e : Encoder) :
    (Encoder.appendVarNumber n e).1.contents = e.contents ++ encodeVarNumber n.toNat ∧
      (Encoder.appendVarNumber n e).2 = (encodeVarNumber n.toNat).length := by
  rw [encodeVarNumber_eq_ite]
  unfold Encoder.appendVarNumber
  split_ifs <;> simp

/-- `tlv::sizeOfVarNumber` is the length of a number. -/
theorem sizeOfVarNumber_eq (n : ℕ) : sizeOfVarNumber n = (encodeVarNumber n).length := by
  unfold sizeOfVarNumber encodeVarNumber
  split_ifs <;> simp [BigEndian.length_toBytes]

/-- The size of an element is the length of its wire. -/
theorem length_encodeElement (type : ℕ) (value : List UInt8) :
    (encodeElement type value).length = (Element.mk type value).size := by
  simp [encodeElement, Element.size, sizeOfVarNumber_eq, Nat.add_assoc]

/-- The estimator and `sizeOfVarNumber` count the octets. -/
theorem length_encodeVarNumber (n : UInt64) :
    sizeOfVarNumber n.toNat = (encodeVarNumber n.toNat).length ∧
      prependVarNumber n = (encodeVarNumber n.toNat).length := by
  have hsize : sizeOfVarNumber n.toNat = prependVarNumber n := by
    obtain ⟨h1, -, h2, h4⟩ := ranges n
    simp only [sizeOfVarNumber, prependVarNumber, h1, h2, h4]
  rw [hsize, and_self]
  rw [encodeVarNumber_eq_ite]
  unfold prependVarNumber
  split_ifs <;> simp

/-- A VAR-NUMBER is read back from a stream. -/
theorem readVarNumberFromStream_encodeVarNumber (n : UInt64) (rest : List UInt8) :
    readVarNumberFromStream (encodeVarNumber n.toNat ++ rest) = some (n, rest) := by
  have hn := n.toNat_lt
  obtain ⟨h1, -, h2, h4⟩ := ranges n
  rw [encodeVarNumber_eq_ite]
  split_ifs with c1 c2 c4
  · -- the octet is the number
    have hoctet : n.toUInt8.toNat = n.toNat := by
      rw [UInt64.toNat_toUInt8]
      have := h1.mp c1
      omega
    grind [UInt8.lt_iff_toNat_lt, UInt64.toNat_inj, UInt8.toNat_toUInt64, readVarNumberFromStream]
  · have hle := h2.mp c2
    rw [toNat_toUInt16_of_le hle]
    exact readOctets_toBytes (k := 2) (by omega) rest
  · have hle := h4.mp c4
    rw [toNat_toUInt32_of_le hle]
    exact readOctets_toBytes (k := 4) (by omega) rest
  · exact readOctets_toBytes (k := 8) (by omega) rest

/-- No exception is thrown where there is something to read. -/
theorem readVarNumberOrThrow_of_some {read : List UInt8 → Option (UInt64 × List UInt8)}
    {bs : List UInt8} {r : UInt64 × List UInt8} (hne : bs ≠ []) (h : read bs = some r) :
    (readVarNumberOrThrow read bs).toOption = some r := by
  unfold readVarNumberOrThrow
  rw [if_neg (by simpa using hne), h]
  rfl

/-- A VAR-NUMBER has an octet. -/
theorem encodeVarNumber_ne_nil (n : ℕ) : encodeVarNumber n ≠ [] := by
  unfold encodeVarNumber
  split_ifs <;> simp

/-- All functions agree on VAR-NUMBERs. -/
theorem varNumberAgree (n : UInt64) : VarNumberAgree n := by
  obtain ⟨hsize, hestimate⟩ := length_encodeVarNumber n
  refine ⟨encodeVarNumber n.toNat, fun os => writeVarNumber_eq os n, prependVarNumber_spec n,
    appendVarNumber_spec n, ?_, ?_⟩
  · intro size hmem
    simp only [List.mem_cons, List.not_mem_nil, or_false] at hmem
    rcases hmem with rfl | rfl | rfl
    · exact hsize
    · exact hestimate
    · exact hestimate
  intro read hread rest
  have hpointer : readVarNumberFromPointer (encodeVarNumber n.toNat ++ rest) = some (n, rest) := by
    rw [readVarNumberFromPointer, readVarNumber_encodeVarNumber n.toNat_lt]
    simp
  grind [readVarNumberFromStream_encodeVarNumber, List.append_ne_nil_of_left_ne_nil,
    encodeVarNumber_ne_nil, readVarNumberOrThrow_of_some]

/-! ### Non-negative integers -/

/-- `prependNonNegativeInteger` writes the number in front. -/
theorem prependNonNegativeInteger_spec (n : UInt64) (e : Encoder) :
    (Encoder.prependNonNegativeInteger n e).1.contents = nonNegativeInteger n ++ e.contents ∧
      (Encoder.prependNonNegativeInteger n e).2 = (nonNegativeInteger n).length := by
  rw [nonNegativeInteger_eq_ite]
  unfold Encoder.prependNonNegativeInteger
  split_ifs <;> simp

/-- `appendNonNegativeInteger` writes the number behind. -/
theorem appendNonNegativeInteger_spec (n : UInt64) (e : Encoder) :
    (Encoder.appendNonNegativeInteger n e).1.contents = e.contents ++ nonNegativeInteger n ∧
      (Encoder.appendNonNegativeInteger n e).2 = (nonNegativeInteger n).length := by
  rw [nonNegativeInteger_eq_ite]
  unfold Encoder.appendNonNegativeInteger
  split_ifs <;> simp

/-- The estimator counts the octets. -/
theorem estimate_nonNegativeInteger (n : UInt64) :
    prependNonNegativeInteger n = (nonNegativeInteger n).length := by
  rw [nonNegativeInteger_eq_ite]
  unfold prependNonNegativeInteger
  split_ifs <;> simp

/-- The stream functions agree where the two bounds do. -/
theorem writeNonNegativeInteger_eq (hn : n < 253 ↔ n ≤ 0xFF) (os : List UInt8) :
    writeNonNegativeInteger os n = (os ++ nonNegativeInteger n, (nonNegativeInteger n).length) ∧
      sizeOfNonNegativeInteger n = (nonNegativeInteger n).length := by
  rw [nonNegativeInteger_eq_ite]
  simp only [writeNonNegativeInteger, sizeOfNonNegativeInteger, hn]
  split_ifs <;> simp

/-- A number is read back in both ways. -/
theorem readNonNegativeIntegers (n : UInt64) (rest : List UInt8) :
    (readNonNegativeIntegerFromPointer (nonNegativeInteger n).length
        (nonNegativeInteger n ++ rest)).toOption = some (n, rest) ∧
      (readNonNegativeIntegerFromStream (nonNegativeInteger n).length
        (nonNegativeInteger n ++ rest)).toOption = some (n, rest) := by
  have hn := n.toNat_lt
  unfold nonNegativeInteger
  grind [length_toBytes, readNonNegativeInteger_toBytes]

/-- All functions agree where the two bounds do. -/
theorem nonNegativeIntegerAgree (hn : n < 253 ↔ n ≤ 0xFF) : NonNegativeIntegerAgree n := by
  refine ⟨nonNegativeInteger n, fun os => (writeNonNegativeInteger_eq hn os).1,
    prependNonNegativeInteger_spec n, appendNonNegativeInteger_spec n, ?_, ?_⟩
  · intro size hmem
    simp only [List.mem_cons, List.not_mem_nil, or_false] at hmem
    rcases hmem with rfl | rfl | rfl
    · exact (writeNonNegativeInteger_eq hn []).2
    · exact estimate_nonNegativeInteger n
    · exact estimate_nonNegativeInteger n
  · grind [readNonNegativeIntegers]

/-- They do not from 253 to 255. -/
theorem not_nonNegativeIntegerAgree (hlow : 253 ≤ n.toNat) (hhigh : n.toNat ≤ 255) :
    ¬ NonNegativeIntegerAgree n := by
  obtain ⟨h1, hff, h2, -⟩ := ranges n
  rintro ⟨octets, hwrite, hprepend, -⟩
  have htwo : octets.length = 2 := by
    have hstream : (writeNonNegativeInteger [] n).2 = octets.length := congrArg Prod.snd (hwrite [])
    grind [writeNonNegativeInteger]
  have hone : octets.length = 1 := by
    have hencoder := (hprepend (Encoder.create 0 0)).2
    grind [Encoder.prependNonNegativeInteger]
  omega

/-- All writers, sizes and readers agree, in both formats, but for the three numbers that the
functions of `tlv.hpp` write in two octets. -/
theorem agree_iff (n : UInt64) :
    (VarNumberAgree n ∧ NonNegativeIntegerAgree n) ↔ ¬ (253 ≤ n.toNat ∧ n.toNat ≤ 255) := by
  constructor
  · grind [not_nonNegativeIntegerAgree]
  · grind [ranges, varNumberAgree, nonNegativeIntegerAgree]

/-- The number 253. -/
theorem octets_differ_of_253 :
    writeNonNegativeInteger [] 253 = ([0, 253], 2) ∧ sizeOfNonNegativeInteger 253 = 2 ∧
      (Encoder.prependNonNegativeInteger 253 (Encoder.create 0 0)).1.contents = [253] ∧
      (Encoder.prependNonNegativeInteger 253 (Encoder.create 0 0)).2 = 1 ∧
      prependNonNegativeInteger 253 = 1 := by
  decide +kernel

end Tlv

end IcnDemo
