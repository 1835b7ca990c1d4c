import IcnDemo.Lp.Fragmenter

/-!
# Reassembly

`LpReassembler::receiveFragment` keeps the fragments of unfinished messages in a map, keyed by the
endpoint they came from and the number of the first fragment.  For the fragments of one series the
map is described by the set of the indexes received so far.
-/

namespace IcnDemo.Lp

open List Packet Tlv

/-- `Transport::EndpointId`. -/
abbrev EndpointId := UInt64

/-- `LpReassembler::Key`: the remote endpoint and the message identifier. -/
abbrev Key := EndpointId × UInt64

/-- `LpReassembler::PartialPacket`; the drop timer is given by the time it fires. -/
structure PartialPacket where
  fragments : List Packet
  fragCount : UInt64
  nReceivedFragments : ℕ
  dropTimer : Option ℕ
  deriving DecidableEq, Repr

/-- `m_partialPackets`. -/
abbrev PartialPackets := Key → Option PartialPacket

/-- `LpReassembler::Options`. -/
structure ReceiveOptions where
  nMaxFragments : UInt64
  reassemblyTimeout : ℕ

/-- How a call of `receiveFragment` ends. -/
inductive Outcome where
  | nothing
  | delivered (netPkt : List UInt8) (firstFrag : Packet)
  | thrown (fault : Fault)
  deriving DecidableEq, Repr

/-! ### The receiver -/

/-- A numeric field, or a default when the field is absent. -/
def Packet.numberOr (p : Packet) (t : ℕ) (default : UInt64) : Except Fault UInt64 :=
  if p.has t then
    match p.getNumber t with
    | none => .error .tlvError
    | some n => .ok n
  else .ok default

/-- A field with a number is there. -/
theorem Packet.has_of_getNumber {p : Packet} {t : ℕ} {n : UInt64}
    (h : p.getNumber t = some n) : p.has t = true := by
  by_contra hno
  rw [getNumber, value_eq_none (by simpa using hno)] at h
  cases h

/-- A number that can be read is read. -/
theorem Packet.numberOr_eq {p : Packet} {t : ℕ} {n d : UInt64}
    (h : p.getNumber t = some n) : p.numberOr t d = .ok n := by
  rw [numberOr, if_pos (has_of_getNumber h), h]

/-- The `payloadSize` of `doReassembly`.  The initial value `0` makes `std::accumulate` keep the
sum in an `int`; every addition is made in `size_t`, and so is the conversion of the result. -/
def payloadSize (payloads : List (List UInt8)) : BitVec 64 :=
  (payloads.foldl (fun (sum : BitVec 32) c =>
    (sum.signExtend 64 + BitVec.ofNat 64 c.length).setWidth 32) 0).signExtend 64

/-- `LpReassembler::doReassembly`.  A buffer of `2 ^ 63` bytes or more cannot be allocated, and a
buffer that is too small is written past its end. -/
def doReassembly (fragments : List Packet) : Except Fault (List UInt8) := do
  let payloads ← fragments.mapM Packet.getFragment
  let size := (payloadSize payloads).toNat
  let bytes := payloads.flatten
  if 2 ^ 63 ≤ size then .error .lengthError
  else if size < bytes.length then .error .overrun
  else
    match readBlock (bytes ++ replicate (size - bytes.length) 0) with
    | none => .error .tlvError
    | some block => .ok block

variable (s : PartialPackets) (key : Key)

/-- The `pp` of `receiveFragment`: the entry of the map, set up if it is new. -/
def findPartialPacket (fragCount : UInt64) : PartialPacket :=
  let pp := (s key).getD ⟨[], 0, 0, none⟩
  if pp.fragCount = 0 then
    { pp with
      fragCount := fragCount
      nReceivedFragments := 0
      fragments := replicate fragCount.toNat Packet.empty }
  else pp

/-- The second half of `receiveFragment`, which adds the packet to its partial packet. -/
def addToPartialPacket (opts : ReceiveOptions) (s : PartialPackets) (now : ℕ) (key : Key)
    (fragIndex fragCount : UInt64) (packet : Packet) : PartialPackets × Outcome :=
  let pp := findPartialPacket s key fragCount
  if fragCount ≠ pp.fragCount then (s, .nothing)
  else
    match pp.fragments[fragIndex.toNat]? with
    | none => (s, .thrown .overrun)
    | some fragment =>
      if fragment.has Field.sequence then (s, .nothing)
      else
        let pp := { pp with
          fragments := pp.fragments.set fragIndex.toNat packet
          nReceivedFragments := pp.nReceivedFragments + 1 }
        if pp.nReceivedFragments = pp.fragCount.toNat then
          match doReassembly pp.fragments with
          | .error fault => (Function.update s key (some pp), .thrown fault)
          | .ok block =>
            (Function.update s key none, .delivered block (pp.fragments.headD Packet.empty))
        else
          (Function.update s key
            (some { pp with dropTimer := some (now + opts.reassemblyTimeout) }), .nothing)

/-- `LpReassembler::receiveFragment`. -/
def receiveFragment (opts : ReceiveOptions) (s : PartialPackets) (now : ℕ)
    (remoteEndpoint : EndpointId) (packet : Packet) : PartialPackets × Outcome :=
  match packet.numberOr Field.fragIndex 0, packet.numberOr Field.fragCount 1 with
  | .error fault, _ | .ok _, .error fault => (s, .thrown fault)
  | .ok fragIndex, .ok fragCount =>
    if fragCount ≤ fragIndex then (s, .nothing)
    else if opts.nMaxFragments < fragCount then (s, .nothing)
    else if fragIndex = 0 ∧ fragCount = 1 then
      match packet.getFragment with
      | .error fault => (s, .thrown fault)
      | .ok bytes =>
        match readBlock bytes with
        | none => (s, .thrown .tlvError)
        | some block => (s, .delivered block packet)
    else if packet.has Field.sequence = false then (s, .nothing)
    else
      match packet.getNumber Field.sequence with
      | none => (s, .thrown .tlvError)
      | some sequence =>
        addToPartialPacket opts s now (remoteEndpoint, sequence - fragIndex) fragIndex fragCount
          packet

/-- `LpReassembler::timeoutPartialPacket`. -/
def timeoutPartialPacket : PartialPackets :=
  Function.update s key none

/-! ### The size of the reassembled packet -/

/-- The sum of the sizes in 32 bits. -/
theorem foldl_size_eq (payloads : List (List UInt8)) (x : BitVec 32) :
    payloads.foldl (fun (sum : BitVec 32) c =>
      (sum.signExtend 64 + BitVec.ofNat 64 c.length).setWidth 32) x =
      x + BitVec.ofNat 32 payloads.flatten.length := by
  induction payloads generalizing x with
  | nil => simp
  | cons c cs ih =>
    have hstep : (x.signExtend 64 + BitVec.ofNat 64 c.length).setWidth 32 =
        x + BitVec.ofNat 32 c.length := by
      rw [BitVec.setWidth_add _ _ (by decide)]
      congr 1
      · ext i hi
        rw [BitVec.getElem_setWidth, BitVec.getLsbD_signExtend, if_pos hi,
          decide_eq_true (by omega), Bool.true_and, BitVec.getLsbD_eq_getElem]
      · simp
    rw [foldl_cons, ih, hstep, flatten_cons, length_append, BitVec.ofNat_add, BitVec.add_assoc]

/-- A sum below 2^31 is right. -/
theorem payloadSize_eq {payloads : List (List UInt8)} (h : payloads.flatten.length < 2 ^ 31) :
    (payloadSize payloads).toNat = payloads.flatten.length := by
  have hmsb : (BitVec.ofNat 32 payloads.flatten.length).msb = false := by
    rw [BitVec.msb_eq_false_iff_two_mul_lt, BitVec.toNat_ofNat, Nat.mod_eq_of_lt (by omega)]
    omega
  rw [payloadSize, foldl_size_eq, show (0 : BitVec 32) = 0#32 from rfl, BitVec.zero_add,
    BitVec.signExtend_eq_setWidth_of_msb_false hmsb, BitVec.toNat_setWidth, BitVec.toNat_ofNat,
    Nat.mod_eq_of_lt (by omega), Nat.mod_eq_of_lt (by omega)]

/-- A greater sum is too small, or enormous when converted. -/
theorem payloadSize_wrong {payloads : List (List UInt8)} (h : 2 ^ 31 ≤ payloads.flatten.length) :
    2 ^ 63 ≤ (payloadSize payloads).toNat ∨
      (payloadSize payloads).toNat < payloads.flatten.length := by
  rw [payloadSize, foldl_size_eq, show (0 : BitVec 32) = 0#32 from rfl, BitVec.zero_add]
  set x := BitVec.ofNat 32 payloads.flatten.length
  rw [BitVec.toNat_signExtend]
  cases hmsb : x.msb with
  | false =>
    rw [BitVec.msb_eq_false_iff_two_mul_lt] at hmsb
    right
    rw [if_neg (by simp), BitVec.toNat_setWidth, Nat.mod_eq_of_lt (by omega)]
    omega
  | true =>
    rw [BitVec.msb_eq_true_iff_two_mul_ge] at hmsb
    left
    rw [if_pos rfl]
    omega

variable (frags : List Packet) (R : Finset ℕ)

/-- The partial packet that holds the fragments of a series with the indexes in `R`. -/
def partialOf (timer : Option ℕ) : PartialPacket where
  fragments := frags.mapIdx fun j f => if j ∈ R then f else Packet.empty
  fragCount := UInt64.ofNat frags.length
  nReceivedFragments := R.card
  dropTimer := timer

/-- The map holds the fragments with the indexes in `R`, and nothing else, under the key. -/
def Holds : Prop :=
  if R = ∅ then s key = none else ∃ timer, s key = some (partialOf frags R timer)

/-- With all fragments it is the series. -/
theorem partialOf_range :
    (frags.mapIdx fun j f => if j ∈ Finset.range frags.length then f else empty) =
      frags := by
  apply ext_getElem?
  intro j
  rw [getElem?_mapIdx]
  by_cases hj : j < frags.length
  · simp [hj]
  · simp [getElem?_eq_none (Nat.le_of_not_lt hj)]

/-- One fragment more. -/
theorem mapIdx_insert {frags : List Packet} {j : ℕ} {f : Packet} (hf : frags[j]? = some f)
    (R : Finset ℕ) :
    ((frags.mapIdx fun j f => if j ∈ R then f else empty).set j f) =
      frags.mapIdx fun k f => if k ∈ insert j R then f else empty := by
  apply ext_getElem?
  intro k
  rw [List.getElem?_set, List.getElem?_mapIdx]
  obtain ⟨hj, hfj⟩ := List.getElem?_eq_some_iff.mp hf
  by_cases hjk : j = k
  · subst hjk
    simp [hfj, hj]
  · simp [hjk, Ne.symm hjk]

namespace IsSeries

variable {np : NetPacket} {first : UInt64} {frags : List Packet} {s : PartialPackets} {key : Key}
  {R : Finset ℕ}

/-- The count fits in its field. -/
theorem toNat_ofNat_length (hlt : frags.length < 2 ^ 64) :
    (UInt64.ofNat frags.length).toNat = frags.length := by
  rw [UInt64.toNat_ofNat']
  exact Nat.mod_eq_of_lt hlt

/-- The partial packet has the fragments that were received. -/
theorem findPartialPacket_eq (h : IsSeries np first frags) (hlt : frags.length < 2 ^ 64)
    (hold : Holds s key frags R) :
    ∃ timer, findPartialPacket s key (UInt64.ofNat frags.length) = partialOf frags R timer := by
  have htwo := h.two_le
  by_cases hR : R = ∅
  · subst hR
    rw [Holds, if_pos rfl] at hold
    refine ⟨none, ?_⟩
    simp only [findPartialPacket, hold, Option.getD_none, if_pos, partialOf,
      toNat_ofNat_length hlt, Finset.card_empty, Finset.notMem_empty, if_false]
    congr 1
    apply ext_getElem?
    intro j
    rw [getElem?_mapIdx, getElem?_replicate]
    by_cases hj : j < frags.length
    · simp [hj]
    · simp [hj]
  · rw [Holds, if_neg hR] at hold
    obtain ⟨timer, htimer⟩ := hold
    refine ⟨timer, ?_⟩
    have hcount : (partialOf frags R timer).fragCount ≠ 0 := by
      intro hzero
      have hnat := congrArg UInt64.toNat hzero
      rw [partialOf, toNat_ofNat_length hlt, UInt64.toNat_zero] at hnat
      omega
    simp [findPartialPacket, htimer, if_neg hcount]

/-- The payloads are read. -/
theorem mapM_getFragment {cs : List (List UInt8)} (hne : ∀ c ∈ cs, c ≠ [])
    (heq : frags.map (fun f => f.value Field.fragment) = cs.map some) :
    frags.mapM getFragment = (.ok cs : Except Fault _) := by
  induction frags generalizing cs with
  | nil =>
    rw [map_nil] at heq
    rw [map_eq_nil_iff.mp heq.symm]
    rfl
  | cons f fs ih =>
    rcases cs with - | ⟨c, cs⟩
    · simp at heq
    rw [map_cons, map_cons, cons.injEq] at heq
    have hget : f.getFragment = .ok c := by
      rcases hc : c with - | ⟨b, bs⟩
      · exact absurd hc (hne c mem_cons_self)
      · rw [getFragment, heq.1, hc]
    rw [mapM_cons, hget, ih (fun c hc => hne c (mem_cons_of_mem _ hc)) heq.2]
    rfl

/-- A small packet is reassembled. -/
theorem doReassembly_eq (h : IsSeries np first frags) (hsmall : np.netPkt.length < 2 ^ 31) :
    doReassembly frags = .ok np.netPkt := by
  obtain ⟨cs, hflatten, hne, hcs⟩ := h.payloads
  have hsize := payloadSize_eq (hflatten ▸ hsmall : cs.flatten.length < 2 ^ 31)
  rw [doReassembly, mapM_getFragment hne hcs]
  simp only [bind, Except.bind, hsize, hflatten, Nat.sub_self, replicate_zero,
    append_nil, np.readBlock_eq]
  rw [if_neg (by omega), if_neg (by omega)]

/-- A large packet is not. -/
theorem doReassembly_large (h : IsSeries np first frags) (hlarge : 2 ^ 31 ≤ np.netPkt.length) :
    ∃ fault, doReassembly frags = .error fault := by
  obtain ⟨cs, hflatten, hne, hcs⟩ := h.payloads
  have hwrong := payloadSize_wrong (hflatten ▸ hlarge : 2 ^ 31 ≤ cs.flatten.length)
  rw [doReassembly, mapM_getFragment hne hcs]
  simp only [bind, Except.bind]
  by_cases hneg : 2 ^ 63 ≤ (payloadSize cs).toNat
  · exact ⟨.lengthError, by rw [if_pos hneg]⟩
  · rw [if_neg hneg, if_pos (hwrong.resolve_left hneg)]
    exact ⟨.overrun, rfl⟩

variable {opts : ReceiveOptions} {f : Packet} {e : EndpointId} {j : ℕ}

/-- The count is limited. -/
theorem length_lt (hlimit : frags.length ≤ opts.nMaxFragments.toNat) : frags.length < 2 ^ 64 :=
  hlimit.trans_lt opts.nMaxFragments.toNat_lt

/-- The index fits in its field. -/
theorem toNat_ofNat_index (hlimit : frags.length ≤ opts.nMaxFragments.toNat)
    (hf : frags[j]? = some f) : (UInt64.ofNat j).toNat = j := by
  have hj : j < frags.length := (List.getElem?_eq_some_iff.mp hf).1
  rw [UInt64.toNat_ofNat']
  exact Nat.mod_eq_of_lt (hj.trans (length_lt hlimit))

/-- A fragment has a sequence number. -/
theorem has_sequence (h : IsSeries np first frags)
    (hf : frags[j]? = some f) : f.has Field.sequence = true :=
  has_of_getNumber (h.sequence_eq j f hf)

variable (h : IsSeries np first frags) (hlimit : frags.length ≤ opts.nMaxFragments.toNat)

include h hlimit

/-- A fragment of a series goes to its partial packet. -/
theorem receiveFragment_eq (now : ℕ) (e : EndpointId) (hf : frags[j]? = some f) :
    receiveFragment opts s now e f =
      addToPartialPacket opts s now (e, first) (UInt64.ofNat j) (UInt64.ofNat frags.length) f := by
  have htwo := h.two_le
  have hj : j < frags.length := (List.getElem?_eq_some_iff.mp hf).1
  have hcountNat : (UInt64.ofNat frags.length).toNat = frags.length :=
    toNat_ofNat_length (length_lt hlimit)
  have hindexNat := toNat_ofNat_index hlimit hf
  rw [receiveFragment, numberOr_eq (h.fragIndex_eq j f hf),
    numberOr_eq (h.fragCount_eq f (mem_of_getElem? hf))]
  simp only [h.has_sequence hf, h.sequence_eq j f hf, UInt64.add_sub_cancel]
  rw [if_neg, if_neg, if_neg, if_neg (by simp)]
  · rintro ⟨-, hone⟩
    have hnat := congrArg UInt64.toNat hone
    rw [hcountNat, UInt64.toNat_one] at hnat
    omega
  · rw [UInt64.lt_iff_toNat_lt, hcountNat]
    omega
  · rw [UInt64.le_iff_toNat_le, hcountNat, hindexNat]
    omega

variable (now : ℕ) (hf : frags[j]? = some f) (hold : Holds s (e, first) frags R)
include hf hold

/-- A fragment that was received does nothing. -/
theorem receive_duplicate (hj : j ∈ R) : receiveFragment opts s now e f = (s, .nothing) := by
  obtain ⟨timer, hfind⟩ := h.findPartialPacket_eq (length_lt hlimit) hold
  have hslot : (partialOf frags R timer).fragments[j]? = some f := by
    rw [partialOf, getElem?_mapIdx, hf]
    simp [hj]
  rw [h.receiveFragment_eq hlimit now e hf, addToPartialPacket]
  simp only [hfind, toNat_ofNat_index hlimit hf, hslot, h.has_sequence hf]
  simp [partialOf]

/-- A new fragment is kept, and the last one ends the reassembly. -/
theorem receive_new (hj : j ∉ R) :
    ∃ pp, pp.fragments = frags.mapIdx (fun k f => if k ∈ insert j R then f else empty) ∧
      receiveFragment opts s now e f = if R.card + 1 = frags.length then
          match doReassembly pp.fragments with
          | .error fault => (Function.update s (e, first) (some pp), .thrown fault)
          | .ok block =>
            (Function.update s (e, first) none, .delivered block (pp.fragments.headD empty))
        else (Function.update s (e, first) (some (partialOf frags (insert j R)
          (some (now + opts.reassemblyTimeout)))), .nothing) := by
  obtain ⟨timer, hfind⟩ := h.findPartialPacket_eq (length_lt hlimit) hold
  have hslot : (partialOf frags R timer).fragments[j]? = some empty := by
    rw [partialOf, getElem?_mapIdx, hf]
    simp [hj]
  refine ⟨partialOf frags (insert j R) timer, rfl, ?_⟩
  rw [h.receiveFragment_eq hlimit now e hf, addToPartialPacket]
  have hempty : empty.has Field.sequence = false := rfl
  simp only [hfind, toNat_ofNat_index hlimit hf, hslot, hempty]
  simp [partialOf, mapIdx_insert hf, toNat_ofNat_length (length_lt hlimit),
    Finset.card_insert_of_notMem hj]

/-- A new fragment that is not the last. -/
theorem receive_kept (hj : j ∉ R) (hmore : R.card + 1 ≠ frags.length) :
    ∃ s', receiveFragment opts s now e f = (s', .nothing) ∧
      (∀ k ≠ (e, first), s' k = s k) ∧ Holds s' (e, first) frags (insert j R) := by
  obtain ⟨pp, -, heq⟩ := h.receive_new hlimit now hf hold hj
  rw [if_neg hmore] at heq
  refine ⟨_, heq, fun k hk => Function.update_of_ne hk _ _, ?_⟩
  rw [Holds, if_neg (Finset.insert_ne_empty j R)]
  exact ⟨_, Function.update_self _ _ _⟩

/-- The last fragment of a network packet of `2 ^ 31` bytes or more ends with an exception or a
write past the buffer. -/
theorem receive_large (hlarge : 2 ^ 31 ≤ np.netPkt.length) (hj : j ∉ R)
    (hfull : insert j R = Finset.range frags.length) :
    ∃ s' fault, receiveFragment opts s now e f = (s', .thrown fault) := by
  obtain ⟨fault, hfault⟩ := h.doReassembly_large hlarge
  obtain ⟨pp, hpp, heq⟩ := h.receive_new hlimit now hf hold hj
  have hlast : R.card + 1 = frags.length := by
    rw [← Finset.card_insert_of_notMem hj, hfull, Finset.card_range]
  rw [if_pos hlast, hpp, hfull, partialOf_range, hfault] at heq
  exact ⟨_, fault, heq⟩

/-- One step: the index of the fragment is added to those received, and the message is delivered
when they are all there. -/
theorem receive_series (hsmall : np.netPkt.length < 2 ^ 31)
    (hR : R ⊂ Finset.range frags.length) :
    ∃ s' o, receiveFragment opts s now e f = (s', o) ∧ (∀ k ≠ (e, first), s' k = s k) ∧
      ((insert j R ⊂ Finset.range frags.length ∧ Holds s' (e, first) frags (insert j R) ∧
          o = .nothing) ∨
       (insert j R = Finset.range frags.length ∧ Holds s' (e, first) frags ∅ ∧
          o = .delivered np.netPkt (frags.headD empty))) := by
  have hj : j < frags.length := (List.getElem?_eq_some_iff.mp hf).1
  have hsub : insert j R ⊆ Finset.range frags.length :=
    Finset.insert_subset (Finset.mem_range.mpr hj) hR.subset
  by_cases hmem : j ∈ R
  · refine ⟨s, .nothing, h.receive_duplicate hlimit now hf hold hmem, fun _ _ => rfl, .inl ?_⟩
    rw [Finset.insert_eq_of_mem hmem]
    exact ⟨hR, hold, rfl⟩
  have hcard := Finset.card_insert_of_notMem hmem
  by_cases hfull : insert j R = Finset.range frags.length
  · obtain ⟨pp, hpp, heq⟩ := h.receive_new hlimit now hf hold hmem
    have hlast : R.card + 1 = frags.length := by
      rw [← hcard, hfull, Finset.card_range]
    rw [if_pos hlast, hpp, hfull, partialOf_range, h.doReassembly_eq hsmall] at heq
    refine ⟨_, _, heq, fun k hk => Function.update_of_ne hk _ _, .inr ⟨hfull, ?_, rfl⟩⟩
    simp [Holds]
  have hcardlt : (insert j R).card < frags.length := by
    have hlt := Finset.card_lt_card (hsub.ssubset_of_ne hfull)
    rwa [Finset.card_range] at hlt
  obtain ⟨s', heq, hother, hold'⟩ :=
    h.receive_kept hlimit now hf hold hmem (by omega)
  exact ⟨s', .nothing, heq, hother, .inl ⟨hsub.ssubset_of_ne hfull, hold', rfl⟩⟩

end IsSeries

/-- A whole packet is delivered at once. -/
theorem IsWhole.receiveFragment_eq {np : NetPacket} {f : Packet} (h : IsWhole np f)
    {opts : ReceiveOptions} (hlimit : 1 ≤ opts.nMaxFragments) (s : PartialPackets) (now : ℕ)
    (e : EndpointId) : receiveFragment opts s now e f = (s, .delivered np.netPkt f) := by
  have hindex : f.numberOr Field.fragIndex 0 = .ok 0 := by
    rcases h.fragIndex_eq with habsent | hzero
    · simp [numberOr, habsent]
    · exact numberOr_eq hzero
  have hcount : f.numberOr Field.fragCount 1 = .ok 1 := by
    rcases h.fragCount_eq with habsent | hone
    · simp [numberOr, habsent]
    · exact numberOr_eq hone
  have hget : f.getFragment = .ok np.netPkt := by
    rw [← np.getFragment_eq, getFragment, getFragment, h.fragment_eq, np.fragment_eq]
  rw [receiveFragment, hindex, hcount]
  simp only [hget, np.readBlock_eq]
  rw [if_neg (by decide), if_neg (UInt64.not_lt.mpr hlimit), if_pos (by simp)]

end IcnDemo.Lp
