import IcnDemo.Encoding.Numbers

/-!
# The buffer of an encoder

An encoder as the source has it: a buffer, and the offsets `m_begin` and `m_end` in it.  A write
outside the buffer is an error.  `ofParts` is the buffer of an `Encoder`, which gives it by its
parts; what the functions do to one they do to the other.

The functions are compared with operations on a plain list (`onList`), which are stated with the
formats of numbers and elements and not with the functions.  They differ only for a block of 2^32
octets or more, of which too few are copied.
-/

namespace IcnDemo

open List BigEndian

/-- The fields of `encoding::Encoder`. -/
structure EncoderBuffer where
  buffer : List UInt8
  mBegin : ℕ
  mEnd : ℕ

namespace EncoderBuffer

/-- `std::copy` to an offset, `none` when it writes outside the buffer. -/
def copy (octets : List UInt8) (offset : ℕ) (buffer : List UInt8) : Option (List UInt8) :=
  if offset + octets.length ≤ buffer.length then
    some (buffer.take offset ++ octets ++ buffer.drop (offset + octets.length))
  else none

/-- The constructor. -/
def create (totalReserve reserveFromBack : ℕ) : EncoderBuffer :=
  let offset := totalReserve - if reserveFromBack < totalReserve then reserveFromBack else 0
  ⟨replicate totalReserve 0, offset, offset⟩

/-- `size`. -/
def size (b : EncoderBuffer) : ℕ :=
  b.mEnd - b.mBegin

variable (b : EncoderBuffer) (size : ℕ) (octets : List UInt8)

/-- `reserve`. -/
def reserve (addInFront : Bool) : Option EncoderBuffer :=
  let size := if size < b.buffer.length then b.buffer.length else size
  if addInFront then
    (copy b.buffer (size - b.buffer.length) (replicate size 0)).map fun buffer =>
      ⟨buffer, size - (b.buffer.length - b.mBegin), size - (b.buffer.length - b.mEnd)⟩
  else (copy b.buffer 0 (replicate size 0)).map fun buffer => ⟨buffer, b.mBegin, b.mEnd⟩

/-- `reserveFront`. -/
def reserveFront : Option EncoderBuffer :=
  if b.mBegin < size then b.reserve (b.buffer.length * 2 + size) true else some b

/-- `reserveBack`. -/
def reserveBack : Option EncoderBuffer :=
  if b.buffer.length < b.mEnd + size then b.reserve (b.buffer.length * 2 + size) false else some b

/-- `prependByteArray`, and `prependByte` for one octet. -/
def prependByteArray : Option EncoderBuffer :=
  (b.reserveFront octets.length).bind fun b =>
    if b.mBegin < octets.length then none
    else (copy octets (b.mBegin - octets.length) b.buffer).map fun buffer =>
      ⟨buffer, b.mBegin - octets.length, b.mEnd⟩

/-- `appendByteArray`, and `appendByte` for one octet. -/
def appendByteArray : Option EncoderBuffer :=
  (b.reserveBack octets.length).bind fun b =>
    (copy octets b.mEnd b.buffer).map fun buffer => ⟨buffer, b.mBegin, b.mEnd + octets.length⟩

/-- The octets that have been written. -/
def contents : List UInt8 :=
  (b.buffer.take b.mEnd).drop b.mBegin

/-- An encoder that has not written outside its buffer so far, or else `none`. -/
instance : ByteWriter (Option EncoderBuffer) where
  prependByteArray octets b := b.bind fun b => b.prependByteArray octets
  appendByteArray octets b := b.bind fun b => b.appendByteArray octets

/-- An array whose length is a `size_t`. -/
abbrev Octets := {octets : List UInt8 // octets.length < 2 ^ 64}

/-- The functions that write.  A block is given by its wire, if it has one, its type and its
value. -/
inductive Op where
  | prependByte (octet : UInt8)
  | appendByte (octet : UInt8)
  | prependByteArray (array : Octets)
  | appendByteArray (array : Octets)
  | prependVarNumber (n : UInt64)
  | appendVarNumber (n : UInt64)
  | prependNonNegativeInteger (n : UInt64)
  | appendNonNegativeInteger (n : UInt64)
  | prependByteArrayBlock (type : UInt32) (array : Octets)
  | appendByteArrayBlock (type : UInt32) (array : Octets)
  | prependBlock (wire : Option Octets) (type : UInt32) (value : Octets)
  | appendBlock (wire : Option Octets) (type : UInt32) (value : Octets)

/-- A call of a function of the encoder. -/
def step {σ : Type} [ByteWriter σ] (e : σ) : Op → σ
  | .prependByte octet => ByteWriter.prependByteArray [octet] e
  | .appendByte octet => ByteWriter.appendByteArray [octet] e
  | .prependByteArray array => ByteWriter.prependByteArray array.1 e
  | .appendByteArray array => ByteWriter.appendByteArray array.1 e
  | .prependVarNumber n => (Encoder.prependVarNumber n e).1
  | .appendVarNumber n => (Encoder.appendVarNumber n e).1
  | .prependNonNegativeInteger n => (Encoder.prependNonNegativeInteger n e).1
  | .appendNonNegativeInteger n => (Encoder.appendNonNegativeInteger n e).1
  | .prependByteArrayBlock type array => (Encoder.prependByteArrayBlock e type array.1).1
  | .appendByteArrayBlock type array => (Encoder.appendByteArrayBlock e type array.1).1
  | .prependBlock wire type value =>
      (Encoder.prependBlock e type value.1 (wire.map Subtype.val)).1
  | .appendBlock wire type value =>
      (Encoder.appendBlock e type value.1 (wire.map Subtype.val)).1

/-- The octets of a block: those that it has, or else its type, length and value. -/
def blockOctets (wire : Option Octets) (type : UInt32) (value : Octets) : List UInt8 :=
  match wire with
  | some wire => wire.1
  | none => Tlv.encodeElement type.toNat value.1

/-- The operation on a plain list, with the formats of numbers and elements. -/
def onList (l : List UInt8) : Op → List UInt8
  | .prependByte octet => octet :: l
  | .appendByte octet => l ++ [octet]
  | .prependByteArray array => array.1 ++ l
  | .appendByteArray array => l ++ array.1
  | .prependVarNumber n => Tlv.encodeVarNumber n.toNat ++ l
  | .appendVarNumber n => l ++ Tlv.encodeVarNumber n.toNat
  | .prependNonNegativeInteger n => Tlv.nonNegativeInteger n ++ l
  | .appendNonNegativeInteger n => l ++ Tlv.nonNegativeInteger n
  | .prependByteArrayBlock type array => Tlv.encodeElement type.toNat array.1 ++ l
  | .appendByteArrayBlock type array => l ++ Tlv.encodeElement type.toNat array.1
  | .prependBlock wire type value => blockOctets wire type value ++ l
  | .appendBlock wire type value => l ++ blockOctets wire type value

/-- The wire of a block that is written can be counted in the 32 bits of `Block::size`. -/
def Op.Counted : Op → Prop
  | .prependBlock (some wire) _ _ | .appendBlock (some wire) _ _ => wire.1.length < 2 ^ 32
  | _ => True

/-! ### The parts of the buffer -/

/-- The buffer of an encoder that is given by its parts. -/
def ofParts (e : Encoder) : EncoderBuffer :=
  ⟨e.front ++ e.contents ++ e.back, e.front.length, e.front.length + e.contents.length⟩

variable (e : Encoder)

/-- The content of a buffer that is given by its parts. -/
theorem contents_ofParts : (ofParts e).contents = e.contents := by
  simp [contents, ofParts, take_append]

/-- The length of a buffer that is given by its parts. -/
theorem length_ofParts : (ofParts e).buffer.length = e.capacity := by
  simp [ofParts, Encoder.capacity, Nat.add_assoc]

/-- A copy replaces a part of the same length. -/
theorem copy_append (before : List UInt8) {old octets : List UInt8} (after : List UInt8)
    (h : old.length = octets.length) :
    copy octets before.length (before ++ old ++ after) = some (before ++ octets ++ after) := by
  have htake : (before ++ old ++ after).take before.length = before := by simp
  have hdrop : (before ++ old ++ after).drop (before.length + octets.length) = after := by
    rw [← h, ← length_append, drop_left]
  rw [copy, if_pos (by simp [h]), htake, hdrop]

/-- A reallocation keeps the content. -/
theorem reserve_ofParts (addInFront : Bool) :
    (ofParts e).reserve size addInFront = some (ofParts (e.reserve size addInFront)) := by
  unfold reserve Encoder.reserve
  rw [length_ofParts]
  generalize hsize : (if size < e.capacity then e.capacity else size) = size'
  have hle : e.capacity ≤ size' := by
    rw [← hsize]
    split <;> omega
  have hsplit : size' - e.capacity + e.capacity = size' := Nat.sub_add_cancel hle
  have hlength : (replicate e.capacity (0 : UInt8)).length = (ofParts e).buffer.length := by
    rw [length_replicate, length_ofParts]
  cases addInFront with
  | true =>
    have hcopy := copy_append (replicate (size' - e.capacity) 0) [] hlength
    rw [length_replicate, append_nil, append_nil, replicate_append_replicate, hsplit] at hcopy
    rw [if_pos rfl, hcopy]
    simp [ofParts, Encoder.capacity] at hle ⊢
    omega
  | false =>
    have hcopy := copy_append [] (replicate (size' - e.capacity) 0) hlength
    rw [nil_append, nil_append, replicate_append_replicate, Nat.add_comm, hsplit,
      length_nil] at hcopy
    rw [if_neg Bool.false_ne_true, hcopy]
    simp [ofParts]

/-- After `reserveFront` there is room in front. -/
theorem reserveFront_ofParts :
    (ofParts e).reserveFront size = some (ofParts (e.reserveFront size)) ∧
      size ≤ (e.reserveFront size).front.length := by
  have hgrow : ¬ e.capacity * 2 + size < e.capacity := by omega
  unfold reserveFront Encoder.reserveFront
  rw [length_ofParts, reserve_ofParts]
  by_cases h : e.front.length < size
  · simp [ofParts, h, Encoder.reserve, hgrow]
    omega
  · simp [ofParts, h]
    omega

/-- After `reserveBack` there is room behind. -/
theorem reserveBack_ofParts :
    (ofParts e).reserveBack size = some (ofParts (e.reserveBack size)) ∧
      size ≤ (e.reserveBack size).back.length := by
  have hgrow : ¬ e.capacity * 2 + size < e.capacity := by omega
  have hfits : e.capacity < (ofParts e).mEnd + size ↔ e.back.length < size := by
    simp [ofParts, Encoder.capacity]
  unfold reserveBack Encoder.reserveBack
  simp only [length_ofParts, reserve_ofParts, hfits]
  by_cases h : e.back.length < size
  · simp [h, Encoder.reserve, hgrow]
    omega
  · simp [h]
    omega

/-- A prepend writes inside the buffer. -/
theorem prependByteArray_ofParts :
    (ofParts e).prependByteArray octets = some (ofParts (e.prependByteArray octets)) := by
  obtain ⟨hreserve, hle⟩ := reserveFront_ofParts octets.length e
  rw [prependByteArray, hreserve, Encoder.prependByteArray]
  generalize e.reserveFront octets.length = e' at hle ⊢
  have hlength : (e'.front.drop (e'.front.length - octets.length)).length = octets.length := by
    rw [length_drop]
    omega
  have hcopy := copy_append (e'.front.take (e'.front.length - octets.length))
    (e'.contents ++ e'.back) hlength
  rw [take_append_drop, length_take, Nat.min_eq_left (Nat.sub_le _ _)] at hcopy
  simp only [ofParts, Option.bind_some, if_neg (Nat.not_lt.mpr hle)]
  rw [append_assoc, hcopy]
  simp
  omega

/-- An append writes inside the buffer. -/
theorem appendByteArray_ofParts :
    (ofParts e).appendByteArray octets = some (ofParts (e.appendByteArray octets)) := by
  obtain ⟨hreserve, hle⟩ := reserveBack_ofParts octets.length e
  rw [appendByteArray, hreserve, Encoder.appendByteArray]
  generalize e.reserveBack octets.length = e' at hle ⊢
  have hcopy := copy_append (e'.front ++ e'.contents) (e'.back.drop octets.length)
    (length_take_of_le hle)
  rw [append_assoc _ (take _ _), take_append_drop, length_append] at hcopy
  simp only [ofParts, Option.bind_some]
  rw [hcopy]
  simp [Nat.add_assoc]

/-! ### Runs -/

/-- A new buffer is given by its reserves. -/
theorem create_eq_ofParts (totalReserve reserveFromBack : ℕ) :
    create totalReserve reserveFromBack = ofParts (.create totalReserve reserveFromBack) := by
  unfold create Encoder.create
  split
  all_goals
    simp [ofParts]
    try omega

/-- The prepended octets are in the buffer of the encoder that is given by its parts. -/
@[simp] theorem prependByteArray_some (octets : List UInt8) (e : Encoder) :
    ByteWriter.prependByteArray octets (some (ofParts e)) =
      some (ofParts (e.prependByteArray octets)) :=
  prependByteArray_ofParts octets e

/-- The appended octets are in the buffer of the encoder that is given by its parts. -/
@[simp] theorem appendByteArray_some (octets : List UInt8) (e : Encoder) :
    ByteWriter.appendByteArray octets (some (ofParts e)) =
      some (ofParts (e.appendByteArray octets)) :=
  appendByteArray_ofParts octets e

/-- Numbers are written to the buffer as they are to the parts. -/
theorem numbers_ofParts (n : UInt64) (e : Encoder) :
    Encoder.prependVarNumber n (some (ofParts e)) =
        (some (ofParts (Encoder.prependVarNumber n e).1), (Encoder.prependVarNumber n e).2) ∧
      Encoder.appendVarNumber n (some (ofParts e)) =
        (some (ofParts (Encoder.appendVarNumber n e).1), (Encoder.appendVarNumber n e).2) ∧
      Encoder.prependNonNegativeInteger n (some (ofParts e)) =
        (some (ofParts (Encoder.prependNonNegativeInteger n e).1),
          (Encoder.prependNonNegativeInteger n e).2) ∧
      Encoder.appendNonNegativeInteger n (some (ofParts e)) =
        (some (ofParts (Encoder.appendNonNegativeInteger n e).1),
          (Encoder.appendNonNegativeInteger n e).2) := by
  unfold Encoder.prependVarNumber Encoder.appendVarNumber Encoder.prependNonNegativeInteger
    Encoder.appendNonNegativeInteger
  refine ⟨?_, ?_, ?_, ?_⟩
  all_goals split_ifs <;> simp

/-- Every function does to the buffer what it does to the parts. -/
theorem step_ofParts (op : Op) : step (some (ofParts e)) op = some (ofParts (step e op)) := by
  cases op with
  | prependByte octet => exact prependByteArray_ofParts [octet] e
  | appendByte octet => exact appendByteArray_ofParts [octet] e
  | prependByteArray array => exact prependByteArray_ofParts array.1 e
  | appendByteArray array => exact appendByteArray_ofParts array.1 e
  | prependVarNumber n => simp [step, numbers_ofParts]
  | appendVarNumber n => simp [step, numbers_ofParts]
  | prependNonNegativeInteger n => simp [step, numbers_ofParts]
  | appendNonNegativeInteger n => simp [step, numbers_ofParts]
  | prependByteArrayBlock type array =>
    simp [step, Encoder.prependByteArrayBlock, numbers_ofParts]
  | appendByteArrayBlock type array => simp [step, Encoder.appendByteArrayBlock, numbers_ofParts]
  | prependBlock wire type value =>
    cases wire <;> simp [step, Encoder.prependBlock, Encoder.prependByteArrayBlock, numbers_ofParts]
  | appendBlock wire type value =>
    cases wire <;> simp [step, Encoder.appendBlock, Encoder.appendByteArrayBlock, numbers_ofParts]

/-! ### The octets that are written -/

/-- The octets of a wire that are copied, as an array. -/
def cutWire (wire : Octets) : Octets :=
  ⟨Encoder.sizedWire wire.1, by
    rw [Encoder.length_sizedWire]
    exact lt_of_le_of_lt (Nat.mod_le _ _) wire.2⟩

/-- The operation with as much of the wire of a block as is copied. -/
def Op.cut : Op → Op
  | .prependBlock wire type value => .prependBlock (wire.map cutWire) type value
  | .appendBlock wire type value => .appendBlock (wire.map cutWire) type value
  | op => op

/-- A prepended array block is an element in front. -/
theorem contents_prependByteArrayBlock (type : UInt32) (array : Octets) :
    (Encoder.prependByteArrayBlock e type array.1).1.contents =
      Tlv.encodeElement type.toNat array.1 ++ e.contents := by
  have hlength : (UInt64.ofNat array.1.length).toNat = array.1.length :=
    UInt64.toNat_ofNat_of_lt' array.2
  simp [Encoder.prependByteArrayBlock, Tlv.encodeElement, Tlv.prependVarNumber_spec, hlength]

/-- An appended array block is an element behind. -/
theorem contents_appendByteArrayBlock (type : UInt32) (array : Octets) :
    (Encoder.appendByteArrayBlock e type array.1).1.contents =
      e.contents ++ Tlv.encodeElement type.toNat array.1 := by
  have hlength : (UInt64.ofNat array.1.length).toNat = array.1.length :=
    UInt64.toNat_ofNat_of_lt' array.2
  simp [Encoder.appendByteArrayBlock, Tlv.encodeElement, Tlv.appendVarNumber_spec, hlength]

/-- Every function writes what the operation on a list does, but for the end of a wire. -/
theorem contents_step (op : Op) : (step e op).contents = onList e.contents op.cut := by
  cases op with
  | prependByte octet => simp [step, onList, Op.cut]
  | appendByte octet => simp [step, onList, Op.cut]
  | prependByteArray array => simp [step, onList, Op.cut]
  | appendByteArray array => simp [step, onList, Op.cut]
  | prependVarNumber n => exact (Tlv.prependVarNumber_spec n e).1
  | appendVarNumber n => exact (Tlv.appendVarNumber_spec n e).1
  | prependNonNegativeInteger n => exact (Tlv.prependNonNegativeInteger_spec n e).1
  | appendNonNegativeInteger n => exact (Tlv.appendNonNegativeInteger_spec n e).1
  | prependByteArrayBlock type array => exact contents_prependByteArrayBlock e type array
  | appendByteArrayBlock type array => exact contents_appendByteArrayBlock e type array
  | prependBlock wire type value =>
    cases wire with
    | some wire => simp [step, onList, Op.cut, Encoder.prependBlock, blockOctets, cutWire]
    | none => exact contents_prependByteArrayBlock e type value
  | appendBlock wire type value =>
    cases wire with
    | some wire => simp [step, onList, Op.cut, Encoder.appendBlock, blockOctets, cutWire]
    | none => exact contents_appendByteArrayBlock e type value

/-- The number of octets that an operation adds to a list. -/
def Op.length (op : Op) : ℕ :=
  (onList [] op).length

/-- An operation adds its length to the list. -/
theorem length_onList (l : List UInt8) (op : Op) : (onList l op).length = l.length + op.length := by
  cases op <;> simp [onList, Op.length, Nat.add_comm]

/-- What is counted is not longer. -/
theorem length_cut_le (op : Op) : op.cut.length ≤ op.length := by
  have hwire : ∀ wire : Octets, (cutWire wire).1.length ≤ wire.1.length := fun wire => by
    rw [cutWire, Encoder.length_sizedWire]
    exact Nat.mod_le _ _
  rcases op with _ | _ | _ | _ | _ | _ | _ | _ | _ | _ | ⟨_ | wire, _, _⟩ | ⟨_ | wire, _, _⟩
  case prependBlock.some => simpa [Op.length, Op.cut, onList, blockOctets] using hwire wire
  case appendBlock.some => simpa [Op.length, Op.cut, onList, blockOctets] using hwire wire
  all_goals exact le_rfl

/-- Nothing of a block is lost exactly if its octets are counted. -/
theorem length_cut_eq_iff (op : Op) : op.cut.length = op.length ↔ op.Counted := by
  have hwire : ∀ wire : Octets, (cutWire wire).1.length = wire.1.length ↔
      wire.1.length < 2 ^ 32 := fun wire => by
    rw [cutWire, Encoder.length_sizedWire]
    exact Nat.mod_eq_iff_lt (by decide)
  rcases op with _ | _ | _ | _ | _ | _ | _ | _ | _ | _ | ⟨_ | wire, _, _⟩ | ⟨_ | wire, _, _⟩
  case prependBlock.some =>
    simpa [Op.length, Op.cut, onList, blockOctets, Op.Counted] using hwire wire
  case appendBlock.some =>
    simpa [Op.length, Op.cut, onList, blockOctets, Op.Counted] using hwire wire
  all_goals exact iff_of_true rfl trivial

/-- An operation whose length can be counted is not cut. -/
theorem cut_of_counted {op : Op} (h : op.Counted) : op.cut = op := by
  have hwire : ∀ wire : Octets, wire.1.length < 2 ^ 32 → cutWire wire = wire := fun wire hlt =>
    Subtype.ext (Encoder.sizedWire_eq hlt)
  rcases op with _ | _ | _ | _ | _ | _ | _ | _ | _ | _ | ⟨_ | wire, _, _⟩ | ⟨_ | wire, _, _⟩
  case prependBlock.some => simp [Op.cut, hwire wire h]
  case appendBlock.some => simp [Op.cut, hwire wire h]
  all_goals rfl

/-! ### Whole runs -/

/-- A run on the buffer is the run on its parts. -/
theorem foldl_step_ofParts (ops : List Op) :
    ops.foldl step (some (ofParts e)) = some (ofParts (ops.foldl step e)) := by
  induction ops generalizing e with
  | nil => rfl
  | cons op ops ih => rw [foldl_cons, foldl_cons, step_ofParts, ih]

/-- The content after a run is the list after the cut operations. -/
theorem contents_foldl_step (ops : List Op) :
    (ops.foldl step e).contents = (ops.map Op.cut).foldl onList e.contents := by
  induction ops generalizing e with
  | nil => rfl
  | cons op ops ih => rw [foldl_cons, ih, contents_step, map_cons, foldl_cons]

/-- A run adds the lengths of its operations. -/
theorem length_foldl_onList (l : List UInt8) (ops : List Op) :
    (ops.foldl onList l).length = l.length + (ops.map Op.length).sum := by
  induction ops generalizing l with
  | nil => simp
  | cons op ops ih => simp [ih, length_onList, Nat.add_assoc]

/-- The lists have the same length only if no operation has lost anything. -/
theorem foldl_onList_cut_eq_iff (l : List UInt8) (ops : List Op) :
    (ops.map Op.cut).foldl onList l = ops.foldl onList l ↔ ∀ op ∈ ops, op.Counted := by
  constructor
  · intro heq
    have hlength := congrArg length heq
    rw [length_foldl_onList, length_foldl_onList, map_map] at hlength
    clear heq
    induction ops with
    | nil => exact fun op hop => absurd hop not_mem_nil
    | cons op ops ih =>
      have hrest : (ops.map (Op.length ∘ Op.cut)).sum ≤ (ops.map Op.length).sum :=
        sum_le_sum fun op _ => length_cut_le op
      have hop := length_cut_le op
      simp only [map_cons, sum_cons, Function.comp_apply] at hlength
      refine forall_mem_cons.mpr ⟨(length_cut_eq_iff op).mp (by omega), ih (by omega)⟩
  · intro h
    rw [map_congr_left fun op hop => cut_of_counted (h op hop), map_id']

/-- Whatever is written, no write is outside the buffer; and the octets from `m_begin` to `m_end`,
whose number `size` returns, are those of the same operations on a list exactly if the wire of every
block that is written has fewer than 2^32 octets. -/
theorem run_eq_onList_iff (totalReserve reserveFromBack : ℕ) (ops : List Op) :
    ∃ b, ops.foldl step (some (create totalReserve reserveFromBack)) = some b ∧
      b.mBegin ≤ b.mEnd ∧ b.mEnd ≤ b.buffer.length ∧ b.size = b.contents.length ∧
      (b.contents = ops.foldl onList [] ↔ ∀ op ∈ ops, op.Counted) := by
  have hrun := foldl_step_ofParts (.create totalReserve reserveFromBack) ops
  have hcontents := contents_foldl_step (.create totalReserve reserveFromBack) ops
  rw [← create_eq_ofParts] at hrun
  refine ⟨_, hrun, by simp [ofParts], by simp [ofParts], ?_, ?_⟩
  · rw [contents_ofParts]
    simp [EncoderBuffer.size, ofParts]
  · rw [contents_ofParts, hcontents]
    exact foldl_onList_cut_eq_iff [] ops

/-- A Content element of `2 ^ 32` octets is appended. -/
def largeBlock : Op :=
  .appendBlock (some ⟨Encoder.largeWire, by rw [Encoder.length_largeWire]; norm_num⟩) 21
    ⟨[], by norm_num⟩

/-- Nothing is written of this element. -/
theorem large_block_not_written :
    ∃ b, [largeBlock].foldl step (some (create Tlv.maxNdnPacketSize 400)) = some b ∧
      b.contents = [] ∧ ([largeBlock].foldl onList []).length = 2 ^ 32 := by
  have hrun := foldl_step_ofParts (.create Tlv.maxNdnPacketSize 400) [largeBlock]
  have hcontents := contents_foldl_step (.create Tlv.maxNdnPacketSize 400) [largeBlock]
  rw [← create_eq_ofParts] at hrun
  refine ⟨_, hrun, ?_, ?_⟩
  · rw [contents_ofParts, hcontents]
    simp [largeBlock, Op.cut, cutWire, onList, blockOctets, Encoder.sizedWire_largeWire,
      Encoder.create]
  · simp only [foldl_cons, foldl_nil, largeBlock, onList, blockOctets, nil_append]
    exact Encoder.length_largeWire

end EncoderBuffer

end IcnDemo
