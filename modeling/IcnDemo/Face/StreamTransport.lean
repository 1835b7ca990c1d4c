import IcnDemo.Block
import IcnDemo.Lib.Runs

/-!
# Stream transports

A `StreamTransport` receives into a buffer of fixed size.  Each time octets arrive, the complete
elements at the front of the buffer are delivered, and what is left is moved to the front; a buffer
that is full and holds no complete element makes the transport fail.

What was delivered, followed by what is in the buffer, is what was received, and the buffer does not
start with a complete element (`Sound`).  As elements can be found however the stream is cut, the
packets that are delivered depend on the stream only.
-/

namespace IcnDemo

open List

open Tlv (maxNdnPacketSize)

/-- The states of a transport in use. -/
inductive TransportState where
  | up
  | down
  | closing
  | failed
  | closed
deriving DecidableEq, Repr

/-- `boost::system::error_code`, as far as it is looked at. -/
inductive ErrorCode where
  | eof
  | operationAborted
  | shutDown
  | other
deriving DecidableEq, Repr

/-- The receiving side of a `StreamTransport`: the buffer, the state, the packets that were
delivered and the sizes of the buffers that receives were issued with. -/
structure StreamTransport where
  receiveBuffer : ℕ → UInt8
  receiveBufferSize : ℕ
  state : TransportState
  delivered : List Block
  receives : List ℕ

namespace StreamTransport

/-- The constructor. -/
def create : StreamTransport where
  receiveBuffer := fun _ => 0
  receiveBufferSize := 0
  state := .up
  delivered := []
  receives := [maxNdnPacketSize]

variable (bytes : List UInt8) (buffer : ℕ → UInt8)

/-- The octets that arrive are written behind those in the buffer. -/
def write (position : ℕ) (octets : List UInt8) : ℕ → UInt8 :=
  fun i => if position ≤ i then (octets[i - position]?).getD (buffer i) else buffer i

/-- `std::copy` of `n` octets from `offset` to the front, one after the other. -/
def copy (buffer : ℕ → UInt8) (offset : ℕ) : ℕ → ℕ → UInt8
  | 0 => buffer
  | n + 1 =>
    let buffer := copy buffer offset n
    Function.update buffer n (buffer (offset + n))

variable (size : ℕ) (chunks : List (List UInt8))

/-- The first `size` octets of the buffer. -/
def octets : List UInt8 :=
  (List.range size).map buffer

/-- The loop of `handleReceive`: `isOk`, the offset and what was delivered at its end.  Each element
has an octet, so that there are at most as many passes as octets. -/
def deliverLoop (bytes : List UInt8) : ℕ → ℕ → List Block → Bool × ℕ × List Block
  | 0, offset, delivered => (true, offset, delivered)
  | fuel + 1, offset, delivered =>
    if bytes.length - offset = 0 then (true, offset, delivered)
    else
      match Block.fromBuffer (bytes.drop offset) with
      | none => (false, offset, delivered)
      | some element =>
        deliverLoop bytes fuel (offset + element.wire.length) (delivered ++ [element])

/-- `processErrorCode`. -/
def processErrorCode (error : ErrorCode) (t : StreamTransport) : StreamTransport :=
  if t.state = .closing ∨ t.state = .failed ∨ t.state = .closed ∨ error = .operationAborted ∨
      error = .shutDown then t
  else { t with state := .failed }

/-- What was delivered is removed from the buffer. -/
def discard (offset : ℕ) (t : StreamTransport) : StreamTransport :=
  if 0 < offset then
    if offset ≠ t.receiveBufferSize then
      { t with
        receiveBuffer := copy t.receiveBuffer offset (t.receiveBufferSize - offset)
        receiveBufferSize := t.receiveBufferSize - offset }
    else { t with receiveBufferSize := 0 }
  else t

/-- `handleReceive`, with the octets that were written to the buffer. -/
def handleReceive (error : Option ErrorCode) (bytes : List UInt8) (t : StreamTransport) :
    StreamTransport :=
  match error with
  | some error => t.processErrorCode error
  | none =>
    let t := { t with
      receiveBuffer := write t.receiveBuffer t.receiveBufferSize bytes
      receiveBufferSize := t.receiveBufferSize + bytes.length }
    let r := deliverLoop (octets t.receiveBuffer t.receiveBufferSize) t.receiveBufferSize 0
      t.delivered
    let isOk := r.1
    let offset := r.2.1
    let t := { t with delivered := r.2.2 }
    if !isOk && t.receiveBufferSize == maxNdnPacketSize && offset == 0 then
      { t with state := .failed }
    else
      let t := t.discard offset
      { t with receives := t.receives ++ [maxNdnPacketSize - t.receiveBufferSize] }

/-- A chunk is received without an error. -/
def receive (t : StreamTransport) (chunk : List UInt8) : StreamTransport :=
  t.handleReceive none chunk

/-- A receive is outstanding; the chunk is not empty, and there is room for it. -/
def Fits (t : StreamTransport) (chunk : List UInt8) : Prop :=
  t.state = .up ∧ chunk ≠ [] ∧ chunk.length ≤ maxNdnPacketSize - t.receiveBufferSize

instance (t : StreamTransport) (chunk : List UInt8) : Decidable (Fits t chunk) :=
  inferInstanceAs (Decidable (_ ∧ _ ∧ _))

/-- The chunks that arrive at a new transport. -/
def Received : Prop :=
  Runs.Along receive Fits create chunks

instance : Decidable (Received chunks) :=
  inferInstanceAs (Decidable (Runs.Along receive Fits create chunks))

/-- The transport after these chunks. -/
def receiveAll : StreamTransport :=
  chunks.foldl receive create

/-! ### The buffer -/

@[simp] theorem length_octets : (octets buffer size).length = size := by
  simp [octets]

/-- Received octets are behind those that are there. -/
theorem octets_write (bytes : List UInt8) :
    octets (write buffer size bytes) (size + bytes.length) = octets buffer size ++ bytes := by
  refine ext_getElem (by simp) ?_
  intro i hi _
  rw [length_octets] at hi
  by_cases hsize : i < size
  · grind [octets, write]
  · have hrest : i - size < bytes.length := by omega
    grind [octets, write]

/-- A copy to the begin of the buffer, octet by octet. -/
theorem copy_apply {offset : ℕ} (hoffset : 0 < offset) (buffer : ℕ → UInt8) (n i : ℕ) :
    copy buffer offset n i = if i < n then buffer (offset + i) else buffer i := by
  induction n generalizing i with
  | zero => simp [copy]
  | succ n ih =>
    have hsource : ¬ offset + n < n := by omega
    rcases eq_or_ne i n with rfl | hne
    · simp [copy, ih, hsource]
    · have hiff : i < n + 1 ↔ i < n := by omega
      simp [copy, Function.update_of_ne hne, ih, hiff]

/-- The copy removes the octets in front. -/
theorem octets_copy {offset size : ℕ} (hoffset : 0 < offset) (buffer : ℕ → UInt8) :
    octets (copy buffer offset (size - offset)) (size - offset)
      = (octets buffer size).drop offset := by
  refine ext_getElem (by simp) ?_
  intro i hi _
  rw [length_octets] at hi
  simp [octets, copy_apply hoffset, hi]

/-! ### The loop -/

/-- The loop has delivered the elements from `offset` to the first place where there is none. -/
structure Delivers (bytes : List UInt8) (offset : ℕ) (delivered : List Block)
    (r : Bool × ℕ × List Block) : Prop where
  delivered : ∃ new, r.2.2 = delivered ++ new ∧ Block.framing.Frames bytes.length new ∧
    bytes.drop offset = new.flatMap Block.wire ++ bytes.drop r.2.1
  offset_le : r.2.1 ≤ bytes.length
  fromBuffer_eq : Block.fromBuffer (bytes.drop r.2.1) = none
  isOk : r.1 = false ↔ r.2.1 < bytes.length

section

variable {bytes : List UInt8} {offset : ℕ} {delivered : List Block}

/-- The loop ends at an incomplete element. -/
theorem Delivers.stop {isOk : Bool} (hoffset : offset ≤ bytes.length)
    (hnone : Block.fromBuffer (bytes.drop offset) = none)
    (hok : isOk = false ↔ offset < bytes.length) :
    Delivers bytes offset delivered (isOk, offset, delivered) where
  delivered := ⟨[], by simp, fun b hb => absurd hb not_mem_nil, by simp⟩
  offset_le := hoffset
  fromBuffer_eq := hnone
  isOk := hok

end

/-- The loop delivers the complete elements of the buffer. -/
theorem deliverLoop_delivers (fuel : ℕ) :
    ∀ (offset : ℕ) (delivered : List Block),
    offset ≤ bytes.length → bytes.length - offset ≤ fuel →
    Delivers bytes offset delivered (deliverLoop bytes fuel offset delivered) := by
  have hend : ∀ (offset : ℕ) (delivered : List Block), offset ≤ bytes.length →
      bytes.length - offset = 0 → Delivers bytes offset delivered (true, offset, delivered) := by
    intro offset delivered hoffset hzero
    have hnil : bytes.drop offset = [] := drop_eq_nil_of_le (by omega)
    refine Delivers.stop hoffset ?_ (by simp; omega)
    rw [hnil]
    exact Block.framing.parse_nil
  induction fuel with
  | zero =>
    intro offset delivered hoffset hfuel
    exact hend offset delivered hoffset (by omega)
  | succ fuel ih =>
    intro offset delivered hoffset hfuel
    unfold deliverLoop
    by_cases hzero : bytes.length - offset = 0
    · rw [if_pos hzero]
      exact hend offset delivered hoffset hzero
    rw [if_neg hzero]
    rcases hparse : Block.fromBuffer (bytes.drop offset) with _ | element
    · exact Delivers.stop hoffset hparse (by simp; omega)
    -- an element, which lies in the buffer
    obtain ⟨rest, hrest⟩ := Block.framing.wire_isPrefix hparse
    have hpos : 0 < element.wire.length :=
      length_pos_iff.mpr (Block.framing.wire_ne_nil hparse)
    have hlength : element.wire.length + rest.length = bytes.length - offset := by
      rw [← length_drop, ← hrest]
      exact length_append.symm
    have hdrop : bytes.drop (offset + element.wire.length) = rest := by
      rw [← drop_drop, ← hrest]
      exact drop_left
    have hone : Block.framing.Frames bytes.length [element] := by
      intro b hb
      rw [mem_singleton.mp hb]
      exact ⟨Block.framing.parse_wire hparse, show element.wire.length ≤ _ by omega⟩
    have hnext := ih (offset + element.wire.length) (delivered ++ [element]) (by omega) (by omega)
    obtain ⟨new, hdelivered, hframes, hbytes⟩ := hnext.delivered
    refine ⟨⟨element :: new, ?_, hone.append hframes, ?_⟩, hnext.offset_le,
      hnext.fromBuffer_eq, hnext.isOk⟩
    · simpa using hdelivered
    · rw [← hrest, flatMap_cons, append_assoc, ← hbytes, hdrop]
      rfl

/-! ### What a transport has received -/

/-- The octets in the buffer. -/
def contents (t : StreamTransport) : List UInt8 :=
  octets t.receiveBuffer t.receiveBufferSize

/-- The content is as long as the size says. -/
theorem length_contents (t : StreamTransport) : t.contents.length = t.receiveBufferSize :=
  length_octets _ _

/-- The delivered octets are removed, and nothing else changes. -/
theorem discard_cases (offset : ℕ) (t : StreamTransport) :
    (t.discard offset).state = t.state ∧ (t.discard offset).delivered = t.delivered ∧
      (t.discard offset).receives = t.receives ∧
      (t.discard offset).contents = t.contents.drop offset := by
  unfold discard
  by_cases hpos : 0 < offset
  · rw [if_pos hpos]
    by_cases hsize : offset = t.receiveBufferSize
    · grind [length_contents]
    · rw [if_pos hsize]
      exact ⟨rfl, rfl, rfl, octets_copy hpos _⟩
  · simp_all

/-- One chunk, in terms of the contents of the buffer: either the transport fails, with a full
buffer and nothing delivered, or the elements at the front are delivered. -/
theorem receive_cases (t : StreamTransport) (chunk : List UInt8) :
    ∃ r, Delivers (t.contents ++ chunk) 0 t.delivered r ∧ (t.receive chunk).delivered = r.2.2 ∧
      (t.receive chunk).contents = (t.contents ++ chunk).drop r.2.1 ∧
      ((r.2.1 = 0 ∧ (t.contents ++ chunk).length = maxNdnPacketSize ∧
          (t.receive chunk).state = .failed ∧ (t.receive chunk).receives = t.receives) ∨
        ((r.1 = false → r.2.1 = 0 → (t.contents ++ chunk).length ≠ maxNdnPacketSize) ∧
          (t.receive chunk).state = t.state ∧ (t.receive chunk).receives =
            t.receives ++ [maxNdnPacketSize - (t.receive chunk).contents.length])) := by
  -- the chunk is written behind the contents
  set t₁ : StreamTransport := { t with
    receiveBuffer := write t.receiveBuffer t.receiveBufferSize chunk
    receiveBufferSize := t.receiveBufferSize + chunk.length }
  have hcontents : t₁.contents = t.contents ++ chunk := octets_write _ _ _
  have hsize : t₁.receiveBufferSize = t₁.contents.length := (length_contents _).symm
  set r := deliverLoop t₁.contents t₁.receiveBufferSize 0 t.delivered
  have hloop : Delivers t₁.contents 0 t.delivered r :=
    deliverLoop_delivers _ _ _ _ (Nat.zero_le _) (by omega)
  set t₂ : StreamTransport := discard r.2.1 { t₁ with delivered := r.2.2 }
  have hreceive : t.receive chunk =
      if (!r.1 && t₁.receiveBufferSize == maxNdnPacketSize && r.2.1 == 0) = true then
        { t₁ with delivered := r.2.2, state := .failed }
      else
        { t₂ with receives := t₂.receives ++ [maxNdnPacketSize - t₂.receiveBufferSize] } := rfl
  rw [← hcontents]
  refine ⟨r, hloop, ?_⟩
  by_cases hfail : (!r.1 && t₁.receiveBufferSize == maxNdnPacketSize && r.2.1 == 0) = true
  · rw [hreceive, if_pos hfail]
    simp only [Bool.and_eq_true, Bool.not_eq_true', beq_iff_eq] at hfail
    obtain ⟨⟨-, hfull⟩, hzero⟩ := hfail
    refine ⟨rfl, ?_, .inl ⟨hzero, hsize.symm.trans hfull, rfl, rfl⟩⟩
    rw [hzero]
    rfl
  · obtain ⟨hstate, hdelivered, hreceives, hdrop⟩ :
        t₂.state = t.state ∧ t₂.delivered = r.2.2 ∧ t₂.receives = t.receives ∧
          t₂.contents = t₁.contents.drop r.2.1 := discard_cases _ _
    rw [hreceive, if_neg hfail]
    refine ⟨hdelivered, hdrop, .inr ⟨?_, hstate, ?_⟩⟩ <;> grind [length_contents]

/-- The stream that was received consists of the packets that were delivered and of the contents of
the buffer, which do not start with an element. -/
structure Sound (t : StreamTransport) (stream : List UInt8) : Prop where
  stream_eq : stream = t.delivered.flatMap Block.wire ++ t.contents
  frames : Block.framing.Frames maxNdnPacketSize t.delivered
  fromBuffer_eq : Block.fromBuffer t.contents = none
  state : t.state = .up ∧ t.contents.length < maxNdnPacketSize ∨
    t.state = .failed ∧ t.contents.length = maxNdnPacketSize
  receives : 0 ∉ t.receives

/-- A new transport has delivered everything. -/
theorem sound_create : Sound create [] where
  stream_eq := rfl
  frames := fun _ hb => absurd hb not_mem_nil
  fromBuffer_eq := rfl
  state := .inl ⟨rfl, by decide⟩
  receives := by decide

variable {t : StreamTransport}

/-- A chunk that fits keeps the transport sound. -/
theorem Sound.receive {stream chunk : List UInt8} (h : Sound t stream)
    (hfits : Fits t chunk) : Sound (t.receive chunk) (stream ++ chunk) := by
  obtain ⟨hup, hne, hroom⟩ := hfits
  have hpos : 0 < chunk.length := length_pos_iff.mpr hne
  have hbefore : t.contents.length < maxNdnPacketSize := by grind [h.state]
  rw [← length_contents] at hroom
  have hlength : (t.contents ++ chunk).length ≤ maxNdnPacketSize := by
    rw [length_append]
    omega
  obtain ⟨r, hloop, hdelivered, hcontents, hstate⟩ := receive_cases t chunk
  obtain ⟨new, hnew, hframes, hbytes⟩ := hloop.delivered
  have hlengthAfter : (t.receive chunk).contents.length = (t.contents ++ chunk).length - r.2.1 := by
    rw [hcontents, length_drop]
  have hoffset := hloop.offset_le
  refine ⟨?_, ?_, ?_, ?_, ?_⟩
  · grind [h.stream_eq]
  · rw [hdelivered, hnew]
    refine h.frames.append fun b hb => ?_
    exact ⟨(hframes b hb).1, (hframes b hb).2.trans hlength⟩
  · rw [hcontents]
    exact hloop.fromBuffer_eq
  · rcases hstate with ⟨hzero, hfull, hfailed, -⟩ | ⟨hnot, hsame, -⟩
    · exact .inr ⟨hfailed, by omega⟩
    grind [hloop.isOk]
  · grind [h.receives, hloop.isOk]

/-- All chunks keep the transport sound. -/
theorem sound_receiveAll {chunks : List (List UInt8)} (h : Received chunks) :
    Sound (receiveAll chunks) chunks.flatten := by
  refine Runs.Along.induction (P := fun chunks => Sound (receiveAll chunks) chunks.flatten)
    sound_create ?_ chunks h
  intro chunks chunk hfits hsound
  have hnext := hsound.receive hfits
  simpa [receiveAll] using hnext

/-- The packets that a transport has delivered, once the whole stream has arrived or it has failed.
-/
theorem Sound.isMaximal {stream rest : List UInt8} (h : Sound t stream)
    (hrest : t.state = .failed ∨ rest = []) :
    Block.framing.IsMaximal maxNdnPacketSize (stream ++ rest) t.delivered := by
  rw [h.stream_eq]
  refine h.frames.isMaximal_append h.fromBuffer_eq ?_
  grind [h.state]

/-- A stream of elements that fit does not close the transport. -/
theorem Sound.state_eq_up {stream : List UInt8} (h : Sound t stream)
    {elements : List Block} (helements : Block.framing.Frames maxNdnPacketSize elements)
    (hstream : stream <+: elements.flatMap Block.wire) : t.state = .up := by
  rcases h.state with ⟨hup, -⟩ | ⟨hfailed, hfull⟩
  · exact hup
  -- all elements would have been delivered, and the buffer would be empty
  obtain ⟨rest, hrest⟩ := hstream
  have hmaximal := h.isMaximal (.inl hfailed : t.state = .failed ∨ rest = [])
  rw [hrest] at hmaximal
  have hall : t.delivered = elements := hmaximal.unique helements.isMaximal
  grind [h.stream_eq, length_append, maxNdnPacketSize]

/-- The packets are the maximal sequence of elements at the start of the stream, however it arrives.
A stream of elements is delivered whole; the transport does not fail, and there is always room for
the next receive. -/
theorem delivered_receiveAll (chunks : List (List UInt8)) (h : Received chunks) :
    (∀ rest, (receiveAll chunks).state = .failed ∨ rest = [] → ∀ packets,
      Block.framing.IsMaximal maxNdnPacketSize (chunks.flatten ++ rest) packets ↔
        packets = (receiveAll chunks).delivered) ∧
    ∀ elements, Block.framing.Frames maxNdnPacketSize elements →
      chunks.flatten <+: elements.flatMap Block.wire →
      (receiveAll chunks).state = .up ∧ 0 ∉ (receiveAll chunks).receives ∧
        (chunks.flatten = elements.flatMap Block.wire →
          (receiveAll chunks).delivered = elements) := by
  have hsound := sound_receiveAll h
  refine ⟨?_, ?_⟩
  · intro rest hrest packets
    constructor
    · intro hmaximal
      exact hmaximal.unique (hsound.isMaximal hrest)
    · rintro rfl
      exact hsound.isMaximal hrest
  intro elements helements hstream
  refine ⟨hsound.state_eq_up helements hstream, hsound.receives, ?_⟩
  intro hall
  have hmaximal := hsound.isMaximal (.inr rfl)
  rw [append_nil, hall] at hmaximal
  exact hmaximal.unique helements.isMaximal

/-- Two elements in two chunks, the first one cut in its value. -/
theorem delivered_receiveAll_twoElements :
    (receiveAll [[5, 2, 1], [9, 6, 0]]).delivered = [⟨5, [5, 2, 1, 9], [1, 9]⟩, ⟨6, [6, 0], []⟩] ∧
      (receiveAll [[5, 2, 1], [9, 6, 0]]).state = .up := by
  obtain ⟨-, hall⟩ := delivered_receiveAll [[5, 2, 1], [9, 6, 0]] (by decide +kernel)
  obtain ⟨hup, -, hdelivered⟩ := hall [⟨5, [5, 2, 1, 9], [1, 9]⟩, ⟨6, [6, 0], []⟩]
    (by unfold Framing.Frames; decide +kernel) (by decide +kernel)
  exact ⟨hdelivered (by decide +kernel), hup⟩

end StreamTransport

end IcnDemo
