import Mathlib.Tactic

/-!
# Encoding buffers

An `Encoder` holds octets in the middle of a buffer, so that it can be extended on both sides; a
buffer that is too small is replaced by one of more than twice its size.  The buffer is given by its
three parts: the octets before `m_begin`, those up to `m_end`, and the rest.
-/

namespace IcnDemo

/-- `encoding::Encoder`. -/
structure Encoder where
  front : List UInt8
  contents : List UInt8
  back : List UInt8
deriving DecidableEq, Repr

namespace Encoder

/-- The constructor. -/
def create (totalReserve reserveFromBack : ℕ) : Encoder :=
  let back := if reserveFromBack < totalReserve then reserveFromBack else 0
  ⟨List.replicate (totalReserve - back) 0, [], List.replicate back 0⟩

/-- The size of the buffer. -/
def capacity (e : Encoder) : ℕ :=
  e.front.length + e.contents.length + e.back.length

/-- `reserve`: the octets stay at the back, or at the front, of a buffer of the given size. -/
def reserve (size : ℕ) (addInFront : Bool) (e : Encoder) : Encoder :=
  let size := if size < e.capacity then e.capacity else size
  let extra := List.replicate (size - e.capacity) 0
  if addInFront then { e with front := extra ++ e.front } else { e with back := e.back ++ extra }

/-- `reserveFront`. -/
def reserveFront (size : ℕ) (e : Encoder) : Encoder :=
  if e.front.length < size then e.reserve (e.capacity * 2 + size) true else e

/-- `reserveBack`. -/
def reserveBack (size : ℕ) (e : Encoder) : Encoder :=
  if e.back.length < size then e.reserve (e.capacity * 2 + size) false else e

/-- `prependByteArray` and `prependByte`: the octets are written before the contents. -/
def prependByteArray (octets : List UInt8) (e : Encoder) : Encoder :=
  let e := e.reserveFront octets.length
  { e with
    front := e.front.take (e.front.length - octets.length)
    contents := octets ++ e.contents }

/-- `appendByteArray` and `appendByte`: the octets are written behind the contents. -/
def appendByteArray (octets : List UInt8) (e : Encoder) : Encoder :=
  let e := e.reserveBack octets.length
  { e with
    contents := e.contents ++ octets
    back := e.back.drop octets.length }

/-- The octets come before the contents. -/
@[simp] theorem contents_prependByteArray (octets : List UInt8) (e : Encoder) :
    (e.prependByteArray octets).contents = octets ++ e.contents := by
  have hreserve : (e.reserveFront octets.length).contents = e.contents := by
    unfold reserveFront
    split <;> rfl
  rw [prependByteArray, hreserve]

/-- The octets come behind the contents. -/
@[simp] theorem contents_appendByteArray (octets : List UInt8) (e : Encoder) :
    (e.appendByteArray octets).contents = e.contents ++ octets := by
  have hreserve : (e.reserveBack octets.length).contents = e.contents := by
    unfold reserveBack
    split <;> rfl
  rw [appendByteArray, hreserve]

end Encoder

/-- What the other functions of an encoder are made of: octets are put before or behind the octets
that have been written. -/
class ByteWriter (σ : Type) where
  prependByteArray : List UInt8 → σ → σ
  appendByteArray : List UInt8 → σ → σ

instance : ByteWriter Encoder :=
  ⟨Encoder.prependByteArray, Encoder.appendByteArray⟩

namespace ByteWriter

/-- The octets before the contents of an encoder. -/
@[simp] theorem prependByteArray_encoder (octets : List UInt8) (e : Encoder) :
    prependByteArray octets e = e.prependByteArray octets := rfl

/-- The octets behind the contents of an encoder. -/
@[simp] theorem appendByteArray_encoder (octets : List UInt8) (e : Encoder) :
    appendByteArray octets e = e.appendByteArray octets := rfl

end ByteWriter

end IcnDemo
