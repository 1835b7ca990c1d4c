import IcnDemo.Encoding.Numbers
import IcnDemo.NameNumber

/-!
# Status datasets

A `StatusDatasetContext` collects blocks in a buffer.  When a block does not fit, the buffer is
filled up and sent as a segment, and the rest goes to a new buffer; a buffer that is just full is
sent when more comes.  `end` sends what is left as the last segment.

The payloads that were sent, followed by the buffer, are at any time what was taken of the blocks
(`Holds`).  As many octets are taken of a block as `Block::size` says, which returns a `uint32_t`.
-/

namespace IcnDemo.Mgmt

open List

/-- The size of a segment. -/
def segmentSize : ℕ := Tlv.maxNdnPacketSize / 2

/-- What the `DataSender` is given. -/
structure SentData where
  name : Name
  payload : List UInt8
  freshnessPeriod : ℤ
  finalBlockId : Option Component
deriving DecidableEq, Repr

/-- `StatusDatasetContext::State`. -/
inductive ContextState where
  | initial
  | responded
  | finalized
deriving DecidableEq, Repr

/-- `StatusDatasetContext`, with the Data that were sent. -/
structure Context where
  interest : Name
  dataPrefix : Name
  expiry : ℤ
  buffer : List UInt8
  segmentNo : UInt64
  state : ContextState
  sent : List SentData
deriving DecidableEq, Repr

namespace Context

/-- `setPrefix`, `none` when it throws, or when there is no last component to be read.  The version
is taken from the clock. -/
def setPrefix (newPrefix : Name) (version : UInt64) (c : Context) : Option Context :=
  if !c.interest.isPrefixOf newPrefix then none
  else if c.state ≠ .initial then none
  else
    match newPrefix.getLast? with
    | none => none
    | some component =>
      some { c with
        dataPrefix :=
          if component.isVersion then newPrefix else newPrefix ++ [.fromVersion version] }

/-- `setExpiry`. -/
def setExpiry (expiry : ℤ) (c : Context) : Context :=
  { c with expiry }

/-- The constructor. -/
def create (interest : Name) (version : UInt64) : Option Context :=
  setPrefix interest version ⟨interest, [], 1000, [], 0, .initial, []⟩

/-- Send the buffer as the next segment. -/
def sendSegment (c : Context) (isLast : Bool) : Context :=
  let segment := Component.fromSegment c.segmentNo
  { c with
    segmentNo := c.segmentNo + 1
    sent := c.sent ++ [⟨c.dataPrefix ++ [segment], c.buffer, c.expiry,
      if isLast then some segment else none⟩] }

/-- The loop of `append` over the bytes left; one pass more than there are bytes is enough. -/
def appendLoop : ℕ → List UInt8 → Context → Context
  | 0, _, c => c
  | fuel + 1, bytes, c =>
    if bytes.isEmpty then c
    else
      let nBytesAppend := min bytes.length (segmentSize - c.buffer.length)
      let c := { c with buffer := c.buffer ++ bytes.take nBytesAppend }
      let bytes := bytes.drop nBytesAppend
      if bytes.isEmpty then c
      else appendLoop fuel bytes { c.sendSegment false with buffer := [] }

/-- `append` of a block, given by its wire form; `none` when it throws. -/
def append (c : Context) (block : List UInt8) : Option Context :=
  if c.state = .finalized then none
  else
    let bytes := Encoder.sizedWire block
    some (appendLoop (bytes.length + 1) bytes { c with state := .responded })

/-- `end`, `none` when it throws. -/
def finish (c : Context) : Option Context :=
  if c.state = .finalized then none
  else some (({ c with state := .finalized }).sendSegment true)

/-- Calls of `append`, and then of `end`. -/
def respond (c : Context) (blocks : List (List UInt8)) : Option Context :=
  (blocks.foldlM append c).bind finish

/-- A context before its first response. -/
inductive Ready : Context → Prop
  | create {interest : Name} {version : UInt64} {c : Context} :
      create interest version = some c → Ready c
  | setPrefix {c c' : Context} {newPrefix : Name} {version : UInt64} :
      Ready c → c.setPrefix newPrefix version = some c' → Ready c'
  | setExpiry {c : Context} (expiry : ℤ) : Ready c → Ready (c.setExpiry expiry)

/-! ### Payloads and buffer -/

/-- Full segments, numbered from 0. -/
def segments (dataPrefix : Name) (expiry : ℤ) (payloads : List (List UInt8)) : List SentData :=
  payloads.zipIdx.map fun p =>
    ⟨dataPrefix ++ [.fromSegment (UInt64.ofNat p.2)], p.1, expiry, none⟩

/-- One segment more. -/
theorem segments_append (dataPrefix : Name) (expiry : ℤ) (payloads : List (List UInt8))
    (payload : List UInt8) :
    segments dataPrefix expiry (payloads ++ [payload]) = segments dataPrefix expiry payloads ++
      [⟨dataPrefix ++ [.fromSegment (UInt64.ofNat payloads.length)], payload, expiry, none⟩] := by
  simp [segments, zipIdx_append]

/-- The full segments that were sent, and the buffer, hold these bytes. -/
structure Holds (c₀ c : Context) (bytes : List UInt8) : Prop where
  dataPrefix : c.dataPrefix = c₀.dataPrefix
  expiry : c.expiry = c₀.expiry
  state : c.state ≠ .finalized
  sent : ∃ payloads : List (List UInt8), c.sent = segments c₀.dataPrefix c₀.expiry payloads ∧
    c.segmentNo = UInt64.ofNat payloads.length ∧ (∀ p ∈ payloads, p.length = segmentSize) ∧
    payloads.flatten ++ c.buffer = bytes
  buffer : c.buffer.length ≤ segmentSize

variable {c₀ c : Context} {bytes : List UInt8}

/-- A part of a block that fits goes into the buffer. -/
theorem Holds.fill (h : Holds c₀ c bytes) (block : List UInt8)
    (hfits : c.buffer.length + block.length ≤ segmentSize) :
    Holds c₀ { c with buffer := c.buffer ++ block } (bytes ++ block) := by
  obtain ⟨payloads, hsent, hnumber, hfull, hbytes⟩ := h.sent
  refine ⟨h.dataPrefix, h.expiry, h.state, ⟨payloads, hsent, hnumber, hfull, ?_⟩, ?_⟩ <;> grind

/-- A full buffer is sent. -/
theorem Holds.send (h : Holds c₀ c bytes) (hfull : c.buffer.length = segmentSize) :
    Holds c₀ { c.sendSegment false with buffer := [] } bytes := by
  obtain ⟨payloads, hsent, hnumber, hpayloads, hbytes⟩ := h.sent
  refine ⟨h.dataPrefix, h.expiry, h.state, ⟨payloads ++ [c.buffer], ?_, ?_, ?_, ?_⟩, Nat.zero_le _⟩
  · rw [segments_append, ← hsent, ← hnumber, ← h.dataPrefix, ← h.expiry]
    rfl
  · rw [length_append, length_singleton, UInt64.ofNat_add, ← hnumber]
    rfl
  · grind
  · simp [← hbytes]

/-- The loop appends all bytes.  Only its first pass may append nothing, when the buffer is full. -/
theorem Holds.appendLoop {fuel : ℕ} : ∀ (block : List UInt8) {c : Context} {bytes : List UInt8},
    Holds c₀ c bytes →
    block.length + (if c.buffer.length = segmentSize then 1 else 0) ≤ fuel →
    Holds c₀ (Context.appendLoop fuel block c) (bytes ++ block) := by
  induction fuel with
  | zero => grind [eq_nil_of_length_eq_zero, Context.appendLoop]
  | succ fuel ih =>
    intro block c bytes h hfuel
    have hbuffer := h.buffer
    unfold Context.appendLoop
    by_cases hempty : block.isEmpty = true
    · simp_all
    rw [if_neg hempty]
    -- the first part of the block goes to the buffer
    set n := min block.length (segmentSize - c.buffer.length) with hn
    have htake : (block.take n).length = n := by
      rw [length_take]
      omega
    have hfill := h.fill (block.take n) (by omega)
    by_cases hrest : (block.drop n).isEmpty = true
    · have hall : block.take n = block := by
        have hnil : block.drop n = [] := by simpa using hrest
        rw [← take_append_drop n block, hnil, append_nil, take_take, min_self]
      simp only [hrest, if_true]
      rwa [hall] at hfill ⊢
    have hlength : 0 < (block.drop n).length := length_pos_iff.mpr (by simpa using hrest)
    rw [length_drop] at hlength
    have hfull : (c.buffer ++ block.take n).length = segmentSize := by
      rw [length_append, htake]
      omega
    have hnext := ih (block.drop n) (hfill.send hfull) (by
      rw [length_drop]
      have hsize : (0 : ℕ) ≠ segmentSize := by decide
      simp only [length_nil, if_neg hsize]
      split at hfuel <;> omega)
    grind [take_append_drop]

/-- A block is appended, as far as its size goes. -/
theorem Holds.append (h : Holds c₀ c bytes) (block : List UInt8) :
    ∃ c', c.append block = some c' ∧ Holds c₀ c' (bytes ++ Encoder.sizedWire block) := by
  refine ⟨_, if_neg h.state,
    Holds.appendLoop _ ⟨h.dataPrefix, h.expiry, by simp, h.sent, h.buffer⟩ ?_⟩
  dsimp only
  split <;> omega

/-- All blocks are appended. -/
theorem Holds.foldlM (blocks : List (List UInt8)) : ∀ {c : Context} {bytes : List UInt8},
    Holds c₀ c bytes → ∃ c', blocks.foldlM Context.append c = some c' ∧
      Holds c₀ c' (bytes ++ (blocks.map Encoder.sizedWire).flatten) := by
  induction blocks with
  | nil => exact fun {c} {bytes} h => ⟨c, rfl, by simpa using h⟩
  | cons block blocks ih =>
    intro c bytes h
    obtain ⟨c₁, happend, h₁⟩ := h.append block
    grind

/-! ### The prefix -/

/-- Before the first response nothing is in the buffer, and the prefix ends with a version. -/
theorem Ready.fresh (h : Ready c) :
    c.state = .initial ∧ c.buffer = [] ∧ c.segmentNo = 0 ∧ c.sent = [] ∧
      ∃ n v, c.dataPrefix = n ++ [v] ∧ v.isVersion = true := by
  have hset : ∀ {c c' : Context} {newPrefix : Name} {version : UInt64},
      c.setPrefix newPrefix version = some c' →
      c'.state = c.state ∧ c'.buffer = c.buffer ∧ c'.segmentNo = c.segmentNo ∧ c'.sent = c.sent ∧
        ∃ n v, c'.dataPrefix = n ++ [v] ∧ v.isVersion = true := by
    intro c c' newPrefix version h
    unfold Context.setPrefix at h
    split at h
    · cases h
    split at h
    · cases h
    split at h
    · cases h
    rename_i component hlast
    cases h
    refine ⟨rfl, rfl, rfl, rfl, ?_⟩
    dsimp only
    split
    · rename_i hversion
      exact ⟨newPrefix.dropLast, component, (dropLast_append_getLast? _ hlast).symm, hversion⟩
    · exact ⟨newPrefix, _, rfl, Component.isNumberWithMarker_fromNumberWithMarker _ _⟩
  induction h with
  | create hcreate => exact hset hcreate
  | setPrefix _ hsetPrefix ih =>
    obtain ⟨hstate, hbuffer, hnumber, hsent, hversioned⟩ := hset hsetPrefix
    simp_all
  | setExpiry _ _ ih => exact ih

/-! ### Responses -/

variable (c) in
/-- The segments of a response: they are numbered from 0 under one versioned prefix, all but the
last one are full, only the last one has a FinalBlockId, and together they hold these bytes. -/
def Responds (blocks : List (List UInt8)) (bytes : List UInt8) : Prop :=
  ∃ c' full last, c.respond blocks = some c' ∧ c'.sent = segments c.dataPrefix c.expiry full ++
      [⟨c.dataPrefix ++ [.fromSegment (UInt64.ofNat full.length)], last, c.expiry,
        some (.fromSegment (UInt64.ofNat full.length))⟩] ∧
    (∃ n v, c.dataPrefix = n ++ [v] ∧ v.isVersion = true) ∧
    (∀ p ∈ full, p.length = segmentSize) ∧ last.length ≤ segmentSize ∧
    full.flatten ++ last = bytes

/-- A response holds what is taken of the blocks. -/
theorem responds_sized (hc : Ready c) (blocks : List (List UInt8)) :
    c.Responds blocks (blocks.map Encoder.sizedWire).flatten := by
  obtain ⟨hstate, hbuffer, hnumber, hsent, hversioned⟩ := hc.fresh
  have hholds : Holds c c [] := by
    refine ⟨rfl, rfl, by simp [hstate], ⟨[], ?_, ?_, by simp, by simp [hbuffer]⟩, by simp [hbuffer]⟩
    · simp [segments, hsent]
    · simpa using hnumber
  obtain ⟨c₁, hfold, h₁⟩ := hholds.foldlM blocks
  obtain ⟨full, hfullSent, hfullNumber, hfull, hbytes⟩ := h₁.sent
  have hfinish : c₁.finish = some (({ c₁ with state := .finalized }).sendSegment true) :=
    if_neg h₁.state
  refine ⟨({ c₁ with state := .finalized }).sendSegment true, full, c₁.buffer, ?_, ?_, hversioned,
    hfull, h₁.buffer, by simpa using hbytes⟩
  · rw [respond, hfold]
    exact hfinish
  · simp [sendSegment, hfullSent, hfullNumber, h₁.dataPrefix, h₁.expiry]

/-- The payloads of full segments. -/
theorem map_payload_segments (dataPrefix : Name) (expiry : ℤ) (payloads : List (List UInt8)) :
    (segments dataPrefix expiry payloads).map SentData.payload = payloads := by
  simp [segments, Function.comp_def]

/-- The bytes of a response are determined by the Data that were sent. -/
theorem Responds.bytes_eq {blocks : List (List UInt8)} {bytes' : List UInt8}
    (h : c.Responds blocks bytes) (h' : c.Responds blocks bytes') : bytes = bytes' := by
  obtain ⟨c₁, full, last, hrespond, hsent, -, -, -, rfl⟩ := h
  obtain ⟨c₂, full', last', hrespond', hsent', -, -, -, rfl⟩ := h'
  obtain rfl := Option.some.inj (hrespond.symm.trans hrespond')
  have hpayloads := congrArg (fun sent => (sent.map SentData.payload).flatten)
    (hsent.symm.trans hsent')
  simpa [map_payload_segments] using hpayloads

/-- Nothing is lost exactly if every block is short enough to be counted. -/
theorem flatten_map_sizedWire_eq_iff (blocks : List (List UInt8)) :
    (blocks.map Encoder.sizedWire).flatten = blocks.flatten ↔
      ∀ block ∈ blocks, block.length < 2 ^ 32 := by
  constructor
  · intro heq
    have hlength := congrArg length heq
    clear heq
    rw [length_flatten, length_flatten, map_map] at hlength
    induction blocks with
    | nil => exact fun block hblock => absurd hblock not_mem_nil
    | cons block blocks ih =>
      have hrest : (blocks.map (length ∘ Encoder.sizedWire)).sum ≤ (blocks.map length).sum :=
        sum_le_sum fun b _ => (Encoder.length_sizedWire b).trans_le (Nat.mod_le _ _)
      have hlt := Nat.mod_lt block.length (y := 2 ^ 32) (by norm_num)
      have hle := Nat.mod_le block.length (2 ^ 32)
      simp only [map_cons, sum_cons, Function.comp_apply, Encoder.length_sizedWire] at hlength
      exact forall_mem_cons.mpr ⟨by omega, ih (by omega)⟩
  · intro h
    rw [map_congr_left fun block hblock => Encoder.sizedWire_eq (h block hblock), map_id']

/-- A response holds what was appended exactly if every block has fewer than `2 ^ 32` octets. -/
theorem responds_flatten_iff (hc : Ready c) (blocks : List (List UInt8)) :
    c.Responds blocks blocks.flatten ↔ ∀ block ∈ blocks, block.length < 2 ^ 32 := by
  rw [← flatten_map_sizedWire_eq_iff]
  constructor
  · exact (responds_sized hc blocks).bytes_eq
  · intro heq
    exact heq ▸ responds_sized hc blocks

/-- The context of an Interest for `/f`, with version 7. -/
theorem create_f : create [⟨8, [102]⟩] 7 = some ⟨[⟨8, [102]⟩], [⟨8, [102]⟩, .fromVersion 7], 1000,
    [], 0, .initial, []⟩ := by decide +kernel

/-- A block that fills a segment, and a short one, which goes to a segment of its own. -/
theorem responds_flatten_twoSegments :
    ∃ c c', create [⟨8, [102]⟩] 7 = some c ∧
      c.respond [replicate segmentSize 240, [240, 1, 5]] = some c' ∧ c'.sent.length = 2 := by
  obtain ⟨c', full, last, hrespond, hsent, -, hfull, hlast, hbytes⟩ :=
    (responds_flatten_iff (.create create_f) [replicate segmentSize 240, [240, 1, 5]]).mpr (by
      intro block hblock
      rcases mem_pair.mp hblock with rfl | rfl
      · rw [length_replicate]
        decide
      · decide)
  have hlength := congrArg length hbytes
  rw [length_append, length_flatten, map_congr_left hfull, map_const', sum_replicate,
    flatten_cons, length_append, length_replicate] at hlength
  refine ⟨_, c', create_f, hrespond, ?_⟩
  have hsize : segmentSize = 4400000 := rfl
  have hone : full.length = 1 := by
    rw [hsize] at hlength hlast
    simp only [flatten_cons, flatten_nil, append_nil, length_cons, length_nil, smul_eq_mul]
      at hlength
    omega
  rw [hsent, length_append, segments, length_map, length_zipIdx, hone]
  rfl

/-- Of a block of `2 ^ 32` octets nothing is sent. -/
theorem large_block_not_sent :
    ∃ c, create [⟨8, [102]⟩] 7 = some c ∧ Encoder.largeWire.length = 2 ^ 32 ∧
      c.Responds [Encoder.largeWire] [] ∧
      ¬ c.Responds [Encoder.largeWire] [Encoder.largeWire].flatten := by
  have hnil := responds_sized (.create create_f) [Encoder.largeWire]
  rw [map_singleton, Encoder.sizedWire_largeWire, flatten_singleton] at hnil
  refine ⟨_, create_f, Encoder.length_largeWire, hnil, fun h => ?_⟩
  have hlength := congrArg length (hnil.bytes_eq h)
  rw [flatten_singleton, Encoder.length_largeWire, length_nil] at hlength
  norm_num at hlength

end Context

end IcnDemo.Mgmt
