import IcnDemo.Block

/-!
# Writing elements backwards

The `wireEncode` functions write an element from its end: the elements of its value are prepended,
the last one first, then the number of octets so far as its length, and its type.  The octets come
out as if the element had been written from its beginning (`Writes`).
-/

namespace IcnDemo

open List

/-- A function that prepends to an encoder, and returns the number of octets that it has prepended.
-/
def Prepend := Encoder → Encoder × ℕ

namespace Prepend

/-- Nothing is written. -/
def nothing : Prepend := fun e => (e, 0)

/-- Two functions, one after the other, as in `totalLength += …`. -/
def andThen (f g : Prepend) : Prepend := fun e =>
  let r := f e
  let s := g r.1
  (s.1, r.2 + s.2)

/-- What is written only on a condition. -/
def onlyIf (c : Prop) [Decidable c] (f : Prepend) : Prepend :=
  if c then f else nothing

/-- A loop from the last item to the first. -/
def backwards {α : Type} (write : α → Prepend) : List α → Prepend
  | [] => nothing
  | a :: as => (backwards write as).andThen (write a)

/-- A loop from the first item to the last. -/
def inOrder {α : Type} (write : α → Prepend) : List α → Prepend
  | [] => nothing
  | a :: as => (write a).andThen (inOrder write as)

/-- `Encoder::prependByteArray`, which returns the size of the array. -/
def byteArray (octets : List UInt8) : Prepend := fun e =>
  (e.prependByteArray octets, octets.length)

/-- `Encoder::prependBlock` of a block with a wire. -/
def block (b : Block) : Prepend := fun e =>
  Encoder.prependBlock e (UInt32.ofNat b.type) b.value (some b.wire)

/-- A value, with its length and a type in front of it. -/
def element (type : ℕ) (value : Prepend) : Prepend := fun e =>
  let r := value e
  let s := Encoder.prependVarNumber (UInt64.ofNat r.2) r.1
  let t := Encoder.prependVarNumber (UInt64.ofNat type) s.1
  (t.1, r.2 + s.2 + t.2)

/-- `prependNonNegativeIntegerBlock`. -/
def nonNegativeIntegerBlock (type : ℕ) (n : UInt64) : Prepend :=
  element type (Encoder.prependNonNegativeInteger n)

/-- `prependEmptyBlock`. -/
def emptyBlock (type : ℕ) : Prepend :=
  element type nothing

/-- The octets in a buffer after a function has written to it.  The buffer has the size that the
same function returns before. -/
def octets (f : Prepend) : List UInt8 :=
  (f (Encoder.create (f (Encoder.create 0 0)).2 0)).1.contents

/-- `Encoder::appendBlock`, in a loop: the only function that writes behind the contents. -/
def appendBlocks : List Block → Prepend
  | [] => nothing
  | b :: bs => andThen (fun e => Encoder.appendBlock e (UInt32.ofNat b.type) b.value (some b.wire))
      (appendBlocks bs)

/-! ### What is written -/

/-- The function writes these octets before what an encoder holds. -/
def WritesAt (f : Prepend) (e : Encoder) (octets : List UInt8) : Prop :=
  (f e).1.contents = octets ++ e.contents ∧ (f e).2 = octets.length

/-- The function writes these octets, whatever stands behind them. -/
def Writes (f : Prepend) (octets : List UInt8) : Prop :=
  ∀ e, f.WritesAt e octets

variable {f g : Prepend} {e : Encoder} {os os' : List UInt8}

/-- What a writer writes is what it writes to an empty encoder. -/
theorem octets_eq_of_empty (h : ∀ e, e.contents = [] → f.WritesAt e os) : f.octets = os := by
  have hcontents := (h (Encoder.create (f (Encoder.create 0 0)).2 0) rfl).1
  simpa [octets, Encoder.create] using hcontents

/-- A writer writes its octets. -/
theorem Writes.octets_eq (h : f.Writes os) : f.octets = os :=
  octets_eq_of_empty fun e _ => h e

/-- Nothing writes no octets. -/
theorem writes_nothing : nothing.Writes [] :=
  fun _ => ⟨rfl, rfl⟩

/-- A byte array is written as it is. -/
theorem writes_byteArray (octets : List UInt8) : (byteArray octets).Writes octets :=
  fun e => ⟨Encoder.contents_prependByteArray octets e, rfl⟩

/-- A block is written as it is, if its octets can be counted in 32 bits. -/
theorem writes_block {b : Block} (h : b.Fits) : (block b).Writes b.wire := by
  intro e
  have hwire : Encoder.sizedWire b.wire = b.wire := Encoder.sizedWire_eq h
  refine ⟨?_, ?_⟩
  · simp [block, Encoder.prependBlock, hwire]
  · simp [block, Encoder.prependBlock, hwire]

/-- What is prepended later comes first. -/
theorem WritesAt.andThen (hf : f.WritesAt e os) (hg : g.Writes os') :
    (f.andThen g).WritesAt e (os' ++ os) := by
  obtain ⟨hcontents, hlength⟩ := hf
  obtain ⟨hcontents', hlength'⟩ := hg (f e).1
  constructor <;> grind [andThen]

/-- What is prepended later comes first, in every state. -/
theorem Writes.andThen (hf : f.Writes os) (hg : g.Writes os') : (f.andThen g).Writes (os' ++ os) :=
  fun e => (hf e).andThen hg

/-- Prepending from the back writes the parts in order. -/
theorem writes_backwards {α : Type} {write : α → Prepend} {wire : α → List UInt8} {as : List α}
    (h : ∀ a ∈ as, (write a).Writes (wire a)) : (backwards write as).Writes (as.flatMap wire) := by
  induction as with
  | nil => exact writes_nothing
  | cons a as ih =>
    have hrest := ih fun b hb => h b (mem_cons_of_mem _ hb)
    exact hrest.andThen (h a mem_cons_self)

/-- The blocks are written behind the contents, the first one first. -/
theorem appendBlocks_spec {bs : List Block} (h : ∀ b ∈ bs, b.Fits) (e : Encoder) :
    (appendBlocks bs e).1.contents = e.contents ++ bs.flatMap Block.wire ∧
      (appendBlocks bs e).2 = (bs.flatMap Block.wire).length := by
  induction bs generalizing e with
  | nil => simp [appendBlocks, nothing]
  | cons b bs ih =>
    obtain ⟨hb, hrest⟩ := forall_mem_cons.mp h
    have hwire : Encoder.sizedWire b.wire = b.wire := Encoder.sizedWire_eq hb
    simp [appendBlocks, andThen, Encoder.appendBlock, hwire, ih hrest]

/-- Blocks that are appended are written in order. -/
theorem writesAt_appendBlocks {bs : List Block} (h : ∀ b ∈ bs, b.Fits) (he : e.contents = []) :
    (appendBlocks bs).WritesAt e (bs.flatMap Block.wire) := by
  obtain ⟨hcontents, hlength⟩ := appendBlocks_spec h e
  exact ⟨by rw [hcontents, he, nil_append, append_nil], hlength⟩

variable {type : ℕ}

/-- Type and length are written before the value. -/
theorem WritesAt.element (h : f.WritesAt e os) (htype : type < 2 ^ 32)
    (hlength : os.length < 2 ^ 64) : (element type f).WritesAt e (Block.make type os).wire := by
  obtain ⟨hcontents, hcount⟩ := h
  obtain ⟨hlen, hlen'⟩ := Tlv.prependVarNumber_spec (UInt64.ofNat (f e).2) (f e).1
  obtain ⟨htyp, htyp'⟩ := Tlv.prependVarNumber_spec (UInt64.ofNat type)
    (Encoder.prependVarNumber (UInt64.ofNat (f e).2) (f e).1).1
  have hback : (UInt64.ofNat os.length).toNat = os.length :=
    UInt64.toNat_ofNat_of_lt' hlength
  have hback' : (UInt64.ofNat type).toNat = type :=
    UInt64.toNat_ofNat_of_lt' (show type < 2 ^ 64 by omega)
  rw [hcount, hback] at hlen hlen'
  rw [hcount, hback'] at htyp htyp'
  constructor <;> grind [element, Block.make, Tlv.encodeElement]

/-- Type and length are written before the value, in every state. -/
theorem Writes.element (h : f.Writes os) (htype : type < 2 ^ 32)
    (hlength : os.length < 2 ^ 64) : (element type f).Writes (Block.make type os).wire :=
  fun e => (h e).element htype hlength

/-- An element with a number. -/
theorem writes_nonNegativeIntegerBlock (htype : type < 2 ^ 32) (n : UInt64) :
    (nonNegativeIntegerBlock type n).Writes (Block.make type (Tlv.nonNegativeInteger n)).wire := by
  have hnumber : Writes (Encoder.prependNonNegativeInteger n) (Tlv.nonNegativeInteger n) :=
    Tlv.prependNonNegativeInteger_spec n
  have hlength := Tlv.length_nonNegativeInteger_le n
  exact hnumber.element htype (by omega)

/-- An element without a value. -/
theorem writes_emptyBlock (htype : type < 2 ^ 32) :
    (emptyBlock type).Writes (Block.make type []).wire :=
  writes_nothing.element htype (by simp)

/-! ### Elements that are written -/

/-- The function writes these elements. -/
def WritesAll (f : Prepend) (bs : List Block) : Prop :=
  f.Writes (bs.flatMap Block.wire)

variable {bs bs' : List Block}

/-- A writer of one element. -/
theorem Writes.all {b : Block} (h : f.Writes b.wire) : f.WritesAll [b] := by
  unfold WritesAll
  rwa [flatMap_singleton]

/-- A block that fits is written. -/
theorem writesAll_block {b : Block} (h : b.Fits) : (block b).WritesAll [b] :=
  (writes_block h).all

/-- Blocks that fit are written in order. -/
theorem writesAll_blocks (h : ∀ b ∈ bs, b.Fits) : (backwards block bs).WritesAll bs :=
  writes_backwards fun b hb => writes_block (h b hb)

/-- Elements that are prepended later come first. -/
theorem WritesAll.andThen (hf : f.WritesAll bs) (hg : g.WritesAll bs') :
    (f.andThen g).WritesAll (bs' ++ bs) := by
  unfold WritesAll
  rw [flatMap_append]
  exact Writes.andThen hf hg

/-- Prepending from the front writes the parts in reverse order. -/
theorem writesAll_inOrder {α : Type} {write : α → Prepend} {blocks : α → List Block} {as : List α}
    (h : ∀ a ∈ as, (write a).WritesAll (blocks a)) :
    (inOrder write as).WritesAll (as.reverse.flatMap blocks) := by
  induction as with
  | nil => exact writes_nothing
  | cons a as ih =>
    have hrest := ih fun b hb => h b (mem_cons_of_mem _ hb)
    rw [reverse_cons, flatMap_append, flatMap_singleton]
    exact (h a mem_cons_self).andThen hrest

/-- An element that is written under a condition. -/
theorem Writes.onlyIf {c : Prop} [Decidable c] {b : Block} (h : c → f.Writes b.wire) :
    (f.onlyIf c).WritesAll (if c then some b else none).toList := by
  by_cases hc : c
  · rw [Prepend.onlyIf, if_pos hc, if_pos hc]
    exact (h hc).all
  · rw [Prepend.onlyIf, if_neg hc, if_neg hc]
    exact writes_nothing

/-- Elements inside of an element. -/
theorem WritesAll.element (h : f.WritesAll bs) (htype : type < 2 ^ 32)
    (hfits : (Block.make type (bs.flatMap Block.wire)).Fits) :
    (element type f).Writes (Block.make type (bs.flatMap Block.wire)).wire :=
  Writes.element h htype hfits.value

end Prepend

end IcnDemo
