import Mathlib.Tactic

/-!
# CityHash64

The 64-bit hash of `core/city-hash.cpp`, on byte lists.  The machine words are little
endian, as on every platform the daemon is built for, and all arithmetic is on 64-bit
words, so products and sums wrap.  No proof of the development looks inside these
functions: the tables only need that the hash is a function of the bytes, and the
concrete values serve to run the tables on concrete names.
-/

namespace IcnDemo

namespace CityHash

/-- A little endian word of `n` bytes. -/
def littleEndian : ℕ → List UInt8 → UInt64
  | 0, _ => 0
  | _ + 1, [] => 0
  | n + 1, b :: s => b.toUInt64 ||| (littleEndian n s <<< 8)

variable (s : List UInt8)

/-- `Fetch64(s + i)`. -/
def fetch64 (i : ℕ) : UInt64 :=
  littleEndian 8 (s.drop i)

/-- `Fetch32(s + i)`, widened to 64 bits. -/
def fetch32 (i : ℕ) : UInt64 :=
  littleEndian 4 (s.drop i)

/-- The first of the primes between 2^63 and 2^64. -/
def k0 : UInt64 := 0xc3a5c85c97cb3127

/-- The second prime. -/
def k1 : UInt64 := 0xb492b66fbe98f273

/-- The third prime. -/
def k2 : UInt64 := 0x9ae16a3b2f90404f

/-- `bswap_64`: the bytes of a word in reverse order. -/
def bswap64 (x : UInt64) : UInt64 :=
  (List.range 8).foldl (fun acc i => (acc <<< 8) ||| ((x >>> (8 * i).toUInt64) &&& 0xFF)) 0

/-- `Rotate`: rotation to the right, by a shift below 64. -/
def rotate (val : UInt64) (shift : ℕ) : UInt64 :=
  if shift = 0 then val
  else (val >>> shift.toUInt64) ||| (val <<< (64 - shift).toUInt64)

/-- `ShiftMix`. -/
def shiftMix (val : UInt64) : UInt64 :=
  val ^^^ (val >>> 47)

/-- `HashLen16(u, v, mul)`. -/
def hashLen16Mul (u v mul : UInt64) : UInt64 :=
  let a := (u ^^^ v) * mul
  let a := a ^^^ (a >>> 47)
  let b := (v ^^^ a) * mul
  let b := b ^^^ (b >>> 47)
  b * mul

/-- `HashLen16(u, v)`, which is `Hash128to64` of the pair. -/
def hashLen16 (u v : UInt64) : UInt64 :=
  hashLen16Mul u v 0x9ddfea08eb382d69

/-- `HashLen0to16`. -/
def hashLen0to16 : UInt64 :=
  let len := s.length
  if 8 ≤ len then
    let mul := k2 + len.toUInt64 * 2
    let a := fetch64 s 0 + k2
    let b := fetch64 s (len - 8)
    let c := rotate b 37 * mul + a
    let d := (rotate a 25 + b) * mul
    hashLen16Mul c d mul
  else if 4 ≤ len then
    let mul := k2 + len.toUInt64 * 2
    let a := fetch32 s 0
    hashLen16Mul (len.toUInt64 + (a <<< 3)) (fetch32 s (len - 4)) mul
  else if 0 < len then
    let a := (s.getD 0 0).toUInt64
    let b := (s.getD (len >>> 1) 0).toUInt64
    let c := (s.getD (len - 1) 0).toUInt64
    -- `y` and `z` are 32-bit words, but three bytes cannot make them overflow
    let y := a + (b <<< 8)
    let z := len.toUInt64 + (c <<< 2)
    shiftMix (y * k2 ^^^ z * k0) * k2
  else k2

/-- `HashLen17to32`. -/
def hashLen17to32 : UInt64 :=
  let len := s.length
  let mul := k2 + len.toUInt64 * 2
  let a := fetch64 s 0 * k1
  let b := fetch64 s 8
  let c := fetch64 s (len - 8) * mul
  let d := fetch64 s (len - 16) * k2
  hashLen16Mul (rotate (a + b) 43 + rotate c 30 + d) (a + rotate (b + k2) 18 + c) mul

/-- `WeakHashLen32WithSeeds` on four words. -/
def weakHashLen32 (w x y z a b : UInt64) : UInt64 × UInt64 :=
  let a := a + w
  let b := rotate (b + a + z) 21
  let c := a
  let a := a + x
  let a := a + y
  let b := b + rotate a 44
  (a + z, b + c)

/-- `WeakHashLen32WithSeeds` on the 32 bytes at offset `i`. -/
def weakHashLen32WithSeeds (i : ℕ) (a b : UInt64) : UInt64 × UInt64 :=
  weakHashLen32 (fetch64 s i) (fetch64 s (i + 8)) (fetch64 s (i + 16)) (fetch64 s (i + 24)) a b

/-- `HashLen33to64`. -/
def hashLen33to64 : UInt64 :=
  let len := s.length
  let mul := k2 + len.toUInt64 * 2
  let a := fetch64 s 0 * k2
  let b := fetch64 s 8
  let c := fetch64 s (len - 24)
  let d := fetch64 s (len - 32)
  let e := fetch64 s 16 * k2
  let f := fetch64 s 24 * 9
  let g := fetch64 s (len - 8)
  let h := fetch64 s (len - 16) * mul
  let u := rotate (a + g) 43 + (rotate b 30 + c) * 9
  let v := ((a + g) ^^^ d) + f + 1
  let w := bswap64 ((u + v) * mul) + h
  let x := rotate (e + f) 42 + c
  let y := (bswap64 ((v + w) * mul) + g) * mul
  let z := e + f + c
  let a := bswap64 ((x + z) * mul + y) + b
  let b := shiftMix ((z + a) * mul + d + h) * mul
  b + x

/-- The 56 bytes of state that the loop over 64-byte chunks carries. -/
structure State where
  v : UInt64 × UInt64
  w : UInt64 × UInt64
  x : UInt64
  y : UInt64
  z : UInt64

/-- One round of the loop, on the chunk at the start of `s`. -/
def round (st : State) : State :=
  let x := rotate (st.x + st.y + st.v.1 + fetch64 s 8) 37 * k1
  let y := rotate (st.y + st.v.2 + fetch64 s 48) 42 * k1
  let x := x ^^^ st.w.2
  let y := y + (st.v.1 + fetch64 s 40)
  let z := rotate (st.z + st.w.1) 33 * k1
  let v := weakHashLen32WithSeeds s 0 (st.v.2 * k1) (x + st.w.1)
  let w := weakHashLen32WithSeeds s 32 (z + st.w.2) (y + fetch64 s 16)
  -- `std::swap(z, x)` ends the round
  { v := v, w := w, x := z, y := y, z := x }

/-- The given number of rounds, each on the next 64 bytes. -/
def rounds : ℕ → List UInt8 → State → State
  | 0, _, st => st
  | n + 1, s, st => rounds n (s.drop 64) (round s st)

/-- `CityHash64` on more than 64 bytes. -/
def hashLong : UInt64 :=
  let len := s.length
  let x := fetch64 s (len - 40)
  let y := fetch64 s (len - 16) + fetch64 s (len - 56)
  let z := hashLen16 (fetch64 s (len - 48) + len.toUInt64) (fetch64 s (len - 24))
  let v := weakHashLen32WithSeeds s (len - 64) len.toUInt64 z
  let w := weakHashLen32WithSeeds s (len - 32) (y + k1) x
  let x := x * k1 + fetch64 s 0
  let st := rounds ((len - 1) / 64) s { v := v, w := w, x := x, y := y, z := z }
  hashLen16 (hashLen16 st.v.1 st.w.1 + shiftMix st.y * k1 + st.z) (hashLen16 st.v.2 st.w.2 + st.x)

end CityHash

/-- `CityHash64`. -/
def cityHash64 (s : List UInt8) : UInt64 :=
  if s.length ≤ 16 then CityHash.hashLen0to16 s
  else if s.length ≤ 32 then CityHash.hashLen17to32 s
  else if s.length ≤ 64 then CityHash.hashLen33to64 s
  else CityHash.hashLong s

/-- `CityHash64WithSeed`. -/
def cityHash64WithSeed (s : List UInt8) (seed : UInt64) : UInt64 :=
  CityHash.hashLen16 (cityHash64 s - CityHash.k2) seed

end IcnDemo
