import IcnDemo.Lib.Chunks
import IcnDemo.Lp.Packet

/-!
# Fragmentation

`LpFragmenter::fragmentPacket` cuts a packet that does not fit in the MTU into fragments, and
`GenericLinkService::sendNetPacket` numbers them and passes them to the transport.  What arrives on
the other side is known from the packets that `sendNetPacket` passes on.
-/

namespace IcnDemo.Lp

open List IcnDemo.Lp.Field Packet Chunks Tlv

/-! ### The sender -/

/-- `MAX_SINGLE_FRAG_OVERHEAD`. -/
def maxSingleFragOverhead : ℕ := 1 + 9 + (1 + 1 + 8) + (1 + 9)

/-- `MAX_FRAG_OVERHEAD`. -/
def maxFragOverhead : ℕ := 1 + 9 + (1 + 1 + 8) + (1 + 1 + 8) + (1 + 1 + 8) + (1 + 9)

/-- The vector of fragments starts with a copy of the packet and is filled up with empty ones. -/
def slot (p : Packet) (fragIndex : ℕ) : Packet :=
  if fragIndex = 0 then p else Packet.empty

/-- The loop of `fragmentPacket`, from the fragment `fragIndex` on: `rest` is what lies between
`fragBegin` and `netPktEnd`, and `size` is the distance from `fragBegin` to `fragEnd`. -/
def populate (p : Packet) (fragCount payloadSize : ℕ) :
    ℕ → ℕ → List UInt8 → ℕ → Except Fault (List Packet)
  | 0, _, _, _ => .ok []
  | fuel + 1, fragIndex, rest, size =>
    if rest.isEmpty then .ok []
    else if fragCount ≤ fragIndex then .error .overrun
    else do
      let frag ← (slot p fragIndex).add Field.fragIndex
        (nonNegativeInteger (UInt64.ofNat fragIndex))
      let frag ← frag.add Field.fragCount (nonNegativeInteger (UInt64.ofNat fragCount))
      let frags ← populate p fragCount payloadSize fuel (fragIndex + 1) (rest.drop size) payloadSize
      .ok (frag.set Field.fragment (rest.take size) :: frags)

/-- The sizes of the elements other than the Fragment, each a `uint32_t`, added up. -/
def headerSize (p : Packet) : ℕ :=
  ((p.clear Field.fragment).elements.map fun e => e.size % 2 ^ 32).sum

/-- `LpFragmenter::fragmentPacket`; `none` when it returns `false`. -/
def fragmentPacket (nMaxFragments : UInt64) (p : Packet) (mtu : ℕ) :
    Except Fault (Option (List Packet)) :=
  if maxSingleFragOverhead + p.wireSize ≤ mtu then .ok (some [p])
  else do
    -- the packet has been encoded to find out its size
    let p ← p.encoded
    let netPkt ← p.getFragment
    -- a bare packet has no other elements
    let firstHeaderSize := headerSize p
    if mtu < maxFragOverhead + firstHeaderSize + 1 then .ok none
    else
      let firstPayloadSize := min netPkt.length (mtu - firstHeaderSize - maxFragOverhead)
      let payloadSize := mtu - maxFragOverhead
      let fragCount := 1 + Chunks.count (netPkt.length - firstPayloadSize) payloadSize
      if nMaxFragments.toNat < fragCount then .ok none
      else do
        let frags ← populate p fragCount payloadSize netPkt.length 0 netPkt firstPayloadSize
        .ok (some (frags ++ List.replicate (fragCount - frags.length) Packet.empty))

/-- `GenericLinkService::assignSequences`, with `m_lastSeqNo`. -/
def assignSequences : UInt64 → List Packet → UInt64 × List Packet
  | lastSeqNo, [] => (lastSeqNo, [])
  | lastSeqNo, p :: ps =>
    let rest := assignSequences (lastSeqNo + 1) ps
    (rest.1, p.set Field.sequence (nonNegativeInteger (lastSeqNo + 1)) :: rest.2)

/-- The options of the sending link service. -/
structure SendOptions where
  allowFragmentation : Bool
  nMaxFragments : UInt64

/-- The first half of `GenericLinkService::sendNetPacket`.  `mtu` is `none` for
`MTU_UNLIMITED`. -/
def fragments (opts : SendOptions) (p : Packet) (mtu : Option ℕ) :
    Except Fault (Option (List Packet)) :=
  match mtu with
  | none => .ok (some [p])
  | some m =>
    if opts.allowFragmentation then fragmentPacket opts.nMaxFragments p m else .ok (some [p])

/-- What the other side reads of a packet that `GenericLinkService::sendNetPacket` passes to the
transport if its size is within the MTU.  The transport is given `size()` octets of the wire, from
which nothing can be read if they are not all. -/
def transmit (mtu : Option ℕ) (p : Packet) : Option Packet :=
  if (∀ m ∈ mtu, p.wireSize ≤ m) ∧ p.wireLength < 2 ^ 32 then p.encoded.toOption else none

/-- `GenericLinkService::sendNetPacket`: the new `m_lastSeqNo` and the packets that reach the other
side. -/
def sendNetPacket (opts : SendOptions) (lastSeqNo : UInt64) (p : Packet) (mtu : Option ℕ) :
    Except Fault (UInt64 × List Packet) :=
  (fragments opts p mtu).map fun
    | none => (lastSeqNo, [])
    | some frags =>
      let numbered := if 1 < frags.length then assignSequences lastSeqNo frags
        else (lastSeqNo, frags)
      (numbered.1, numbered.2.filterMap (transmit mtu))

/-- A packet as the link service builds it around a network packet: the Fragment holds the whole
network packet, which is one element, and there is no trace of fragmentation. -/
structure NetPacket where
  packet : Packet
  netPkt : List UInt8
  fragment_eq : packet.value Field.fragment = some netPkt
  readBlock_eq : readBlock netPkt = some netPkt
  fragIndex_absent : packet.has Field.fragIndex = false
  fragCount_absent : packet.has Field.fragCount = false
  typed : packet.Typed

/-- The packet, with its headers and with what fragmentation adds, can be counted in 32 bits. -/
def NetPacket.Fits (np : NetPacket) : Prop :=
  np.packet.elementsSize + maxFragOverhead < 2 ^ 32

instance (np : NetPacket) : Decidable np.Fits :=
  inferInstanceAs (Decidable (_ < _))

/-! ### The loop -/

/-- The fragment that the loop leaves in a slot. -/
def mkFragment (p : Packet) (fragCount fragIndex : ℕ) (payload : List UInt8) : Packet :=
  (((slot p fragIndex).insert Field.fragIndex
      (nonNegativeInteger (UInt64.ofNat fragIndex))).insert Field.fragCount
        (nonNegativeInteger (UInt64.ofNat fragCount))).set Field.fragment payload

/-- A slot has no field that the packet lacks. -/
theorem has_slot {p : Packet} {t : ℕ} (h : p.has t = false) (i : ℕ) : (slot p i).has t = false := by
  unfold slot
  split_ifs
  · exact h
  · rfl

/-- A field that is not there can be added. -/
theorem add_eq_ok {p : Packet} {t : ℕ} (h : p.has t = false) (v : List UInt8) :
    p.add t v = .ok (p.insert t v) := by
  simp [add, h]

namespace NetPacket

variable (np : NetPacket)

/-- A network packet is not empty. -/
theorem netPkt_ne_nil : np.netPkt ≠ [] :=
  ne_nil_of_readBlock np.readBlock_eq

/-- A network packet is read from its Fragment. -/
theorem getFragment_eq : np.packet.getFragment = .ok np.netPkt := by
  have hne := np.netPkt_ne_nil
  grind [getFragment, np.fragment_eq]

/-- The loop cuts the packet into chunks. -/
theorem populate_eq (fragCount size : ℕ) (fuel i : ℕ) (rest : List UInt8) (n : ℕ)
    (h : i + (chunks size fuel n rest).length ≤ fragCount) :
    populate np.packet fragCount size fuel i rest n =
      .ok ((chunks size fuel n rest).mapIdx fun j c =>
        mkFragment np.packet fragCount (i + j) c) := by
  induction fuel generalizing i rest n with
  | zero => rfl
  | succ fuel ih =>
    by_cases hrest : rest = []
    · subst hrest
      rw [chunks_nil]
      rfl
    rw [chunks_cons size fuel n hrest] at h ⊢
    rw [length_cons] at h
    have hindex := add_eq_ok (has_slot np.fragIndex_absent i) (nonNegativeInteger (UInt64.ofNat i))
    have hcount : ((slot np.packet i).insert Field.fragIndex
        (nonNegativeInteger (UInt64.ofNat i))).has Field.fragCount = false := by
      rw [has_insert, has_slot np.fragCount_absent]
      rfl
    have hmore := ih (i + 1) (rest.drop n) size (by omega)
    rw [populate, if_neg (by simpa using hrest), if_neg (by omega), hindex, mapIdx_cons]
    simp only [add_eq_ok hcount, hmore, bind, Except.bind]
    simp [mkFragment, Nat.add_assoc, Nat.add_comm 1]

/-- The payload size of the first fragment. -/
def firstPayloadSize (mtu : ℕ) : ℕ :=
  min np.netPkt.length (mtu - (np.packet.clear Field.fragment).elementsSize - maxFragOverhead)

/-- The payloads of the fragments. -/
def payloads (mtu : ℕ) : List (List UInt8) :=
  Chunks.chunks (mtu - maxFragOverhead) np.netPkt.length (np.firstPayloadSize mtu) np.netPkt

/-- The MTU has room for a fragment with one byte behind the headers of the packet. -/
def HasRoom (mtu : ℕ) : Prop :=
  maxFragOverhead + (np.packet.clear Field.fragment).elementsSize + 1 ≤ mtu

variable {np} in
/-- The packet survives `wireEncode`. -/
theorem Fits.encoded_eq (h : np.Fits) : np.packet.encoded = .ok np.packet := by
  unfold Fits at h
  exact Packet.encoded_eq np.typed (by omega)

variable {np} in
/-- Nothing is lost of the sizes of the headers. -/
theorem Fits.headerSize_eq (h : np.Fits) :
    headerSize np.packet = (np.packet.clear Field.fragment).elementsSize := by
  unfold Fits at h
  unfold headerSize elementsSize
  refine congrArg List.sum (map_congr_left fun e he => Nat.mod_eq_of_lt ?_)
  have hle := size_le_elementsSize (p := np.packet) (mem_of_mem_filter he)
  omega

section HasRoom

variable {np} {mtu : ℕ}

variable (hroom : np.HasRoom mtu)

include hroom

/-- There is room in the first fragment. -/
theorem firstPayloadSize_pos : 0 < np.firstPayloadSize mtu := by
  have hlength : 0 < np.netPkt.length := length_pos_of_ne_nil np.netPkt_ne_nil
  unfold HasRoom at hroom
  unfold firstPayloadSize
  omega

/-- There is room in the other fragments. -/
theorem payloadSize_pos : 0 < mtu - maxFragOverhead := by
  unfold HasRoom at hroom
  omega

/-- The payloads together are the packet. -/
theorem flatten_payloads : (np.payloads mtu).flatten = np.netPkt :=
  flatten_chunks (payloadSize_pos hroom) (firstPayloadSize_pos hroom) (Nat.le_refl _)

/-- No payload is empty. -/
theorem ne_nil_of_mem_payloads {c : List UInt8} (hc : c ∈ np.payloads mtu) : c ≠ [] :=
  (length_of_mem_chunks (payloadSize_pos hroom) (firstPayloadSize_pos hroom) hc).1

/-- The number of fragments is computed right. -/
theorem length_payloads : (np.payloads mtu).length =
      1 + count (np.netPkt.length - np.firstPayloadSize mtu) (mtu - maxFragOverhead) := by
  have hle : np.firstPayloadSize mtu ≤ np.netPkt.length := Nat.min_le_left _ _
  rw [payloads, length_chunks (payloadSize_pos hroom) (firstPayloadSize_pos hroom)
    (Nat.le_refl _) np.netPkt_ne_nil, Nat.min_eq_right hle]

end HasRoom

/-- What `fragmentPacket` returns when the packet does not fit as a whole: one fragment for each
payload. -/
theorem fragmentPacket_eq (hfits : np.Fits) {nMaxFragments : UInt64} {mtu : ℕ}
    (hslow : mtu < maxSingleFragOverhead + np.packet.wireSize) (hroom : np.HasRoom mtu)
    (hlimit : (np.payloads mtu).length ≤ nMaxFragments.toNat) :
    fragmentPacket nMaxFragments np.packet mtu = .ok (some ((np.payloads mtu).mapIdx
        (mkFragment np.packet (np.payloads mtu).length))) := by
  rw [fragmentPacket, if_neg (by omega)]
  simp only [hfits.encoded_eq, hfits.headerSize_eq, np.getFragment_eq, bind, Except.bind]
  rw [if_neg (by unfold HasRoom at hroom; omega)]
  have hcount := length_payloads hroom
  rw [firstPayloadSize] at hcount
  rw [← hcount, if_neg (by omega)]
  have hloop := np.populate_eq (np.payloads mtu).length (mtu - maxFragOverhead)
    np.netPkt.length 0 np.netPkt (np.firstPayloadSize mtu) (by rw [← payloads]; omega)
  rw [← payloads, firstPayloadSize] at hloop
  rw [hloop]
  simp

/-- What `fragmentPacket` returns: nothing, the packet itself, or one fragment per payload. -/
theorem fragmentPacket_cases (hfits : np.Fits) (nMaxFragments : UInt64) (mtu : ℕ) :
    (fragmentPacket nMaxFragments np.packet mtu = .ok none) ∨
    (fragmentPacket nMaxFragments np.packet mtu = .ok (some [np.packet])) ∨
    (np.HasRoom mtu ∧ (np.payloads mtu).length ≤ nMaxFragments.toNat ∧
      fragmentPacket nMaxFragments np.packet mtu = .ok (some ((np.payloads mtu).mapIdx
          (mkFragment np.packet (np.payloads mtu).length)))) := by
  by_cases hfast : maxSingleFragOverhead + np.packet.wireSize ≤ mtu
  · exact .inr (.inl (by rw [fragmentPacket, if_pos hfast]))
  by_cases hroom : np.HasRoom mtu
  · by_cases hlimit : (np.payloads mtu).length ≤ nMaxFragments.toNat
    · grind [np.fragmentPacket_eq]
    left
    rw [fragmentPacket, if_neg hfast]
    simp only [hfits.encoded_eq, hfits.headerSize_eq, np.getFragment_eq, bind, Except.bind]
    grind [length_payloads, firstPayloadSize]
  · left
    rw [fragmentPacket, if_neg hfast]
    simp only [hfits.encoded_eq, hfits.headerSize_eq, np.getFragment_eq, bind, Except.bind]
    rw [if_pos (by unfold HasRoom at hroom; omega)]

end NetPacket

/-! ### The fields of a fragment -/

section MkFragment

variable (np : NetPacket) (n i : ℕ) (payload : List UInt8)

@[simp] theorem value_mkFragment_fragment :
    (mkFragment np.packet n i payload).value fragment = some payload := by
  simp [mkFragment]

@[simp] theorem value_mkFragment_fragIndex :
    (mkFragment np.packet n i payload).value fragIndex =
      some (nonNegativeInteger (UInt64.ofNat i)) := by
  rw [mkFragment, value_set_of_ne (by decide), value_insert_of_ne (by decide),
    value_insert_self (has_slot np.fragIndex_absent i)]

@[simp] theorem value_mkFragment_fragCount :
    (mkFragment np.packet n i payload).value fragCount =
      some (nonNegativeInteger (UInt64.ofNat n)) := by
  rw [mkFragment, value_set_of_ne (by decide), value_insert_self]
  rw [has_insert, has_slot np.fragCount_absent]
  rfl

/-- The first fragment has the headers. -/
theorem headers_mkFragment_zero :
    (mkFragment np.packet n 0 payload).headers = np.packet.headers := by
  rw [mkFragment, headers_set (by decide), headers_insert (by decide),
    headers_insert (by decide)]
  rfl

/-- A fragment is longer than its payload and the headers of its slot by less than the overhead that
the fragmenter allows for: the header of the packet and a sequence number are left. -/
theorem elementsSize_mkFragment_le :
    (mkFragment np.packet n i payload).elementsSize + (1 + 9) + (1 + 1 + 8) ≤
      ((slot np.packet i).clear fragment).elementsSize + payload.length + maxFragOverhead := by
  have hindexsize : (Element.mk fragIndex (nonNegativeInteger (UInt64.ofNat i))).size ≤
      1 + 1 + 8 := size_nonNegativeInteger_le (by decide) _
  have hcountsize : (Element.mk fragCount (nonNegativeInteger (UInt64.ofNat n))).size ≤
      1 + 1 + 8 := size_nonNegativeInteger_le (by decide) _
  have hfrag : (Element.mk fragment payload).size ≤ 1 + 9 + payload.length := by
    grind [sizeOfVarNumber, fragment, Element.size]
  have hmk : (mkFragment np.packet n i payload).elementsSize =
      ((slot np.packet i).clear fragment).elementsSize +
        (Element.mk fragIndex (nonNegativeInteger (UInt64.ofNat i))).size +
        (Element.mk fragCount (nonNegativeInteger (UInt64.ofNat n))).size +
        (Element.mk fragment payload).size := by
    rw [mkFragment, Packet.set, Packet.elementsSize_insert,
      Packet.elementsSize_clear_insert (by decide), Packet.elementsSize_clear_insert (by decide)]
  have hoverhead : maxFragOverhead = 50 := rfl
  omega

/-- A numbered fragment is longer by at most that overhead, the header of the packet not counted. -/
theorem elementsSize_numbered_le (seq : UInt64) :
    ((mkFragment np.packet n i payload).set sequence (nonNegativeInteger seq)).elementsSize +
      (1 + 9) ≤ ((slot np.packet i).clear fragment).elementsSize + payload.length +
        maxFragOverhead := by
  have hseq := Packet.elementsSize_set_le (mkFragment np.packet n i payload) sequence
    (nonNegativeInteger seq)
  have hseqsize : (Element.mk sequence (nonNegativeInteger seq)).size ≤ 1 + 1 + 8 :=
    size_nonNegativeInteger_le (by decide) seq
  have hmk := elementsSize_mkFragment_le np n i payload
  omega

/-- The types of a fragment are those of the packet, and those of fragmentation. -/
theorem typed_mkFragment : (mkFragment np.packet n i payload).Typed := by
  have hslot : (slot np.packet i).Typed := by
    unfold slot
    split_ifs
    · exact np.typed
    · exact fun e he => absurd he not_mem_nil
  exact ((hslot.insert (by decide) _).insert (by decide) _).set (by decide) _

/-- Beside the headers of its slot and a payload, a fragment is no longer than the packet. -/
theorem NetPacket.Fits.slot_add_lt {np : NetPacket} (h : np.Fits) (i : ℕ) {payload : List UInt8}
    (hpayload : payload.length ≤ np.netPkt.length) :
    ((slot np.packet i).clear fragment).elementsSize + payload.length + maxFragOverhead
      < 2 ^ 32 := by
  unfold NetPacket.Fits at h
  have hslot : ((slot np.packet i).clear fragment).elementsSize ≤
      (np.packet.clear fragment).elementsSize := by
    unfold slot
    split_ifs
    · exact le_rfl
    · exact Nat.zero_le _
  obtain ⟨e, he, hvalue⟩ := Option.map_eq_some_iff.mp np.fragment_eq
  have htype : e.type = fragment := by simpa using find?_some he
  have hle := Packet.elementsSize_clear_add_le (mem_of_find?_eq_some he)
  rw [htype] at hle
  have hsize : np.netPkt.length ≤ e.size := by
    rw [← hvalue, Element.size]
    omega
  omega

end MkFragment

/-! ### Numbering -/

section

variable (lastSeqNo : UInt64) (ps : List Packet)

/-- The sequence number that was used last. -/
theorem fst_assignSequences :
    (assignSequences lastSeqNo ps).1 = lastSeqNo + UInt64.ofNat ps.length := by
  induction ps generalizing lastSeqNo with
  | nil => simp [assignSequences]
  | cons p ps ih => grind [assignSequences, UInt64.ofNat_add]

/-- The fragments have consecutive sequence numbers. -/
theorem getElem?_assignSequences (j : ℕ) :
    (assignSequences lastSeqNo ps).2[j]? = ps[j]?.map fun p =>
      p.set sequence (nonNegativeInteger (lastSeqNo + 1 + UInt64.ofNat j)) := by
  induction ps generalizing lastSeqNo j with
  | nil => rfl
  | cons p ps ih =>
    rcases j with - | j
    · simp [assignSequences]
    · rw [assignSequences, getElem?_cons_succ, getElem?_cons_succ, ih,
        UInt64.ofNat_add, UInt64.add_comm (UInt64.ofNat j), ← UInt64.add_assoc]
      rfl

/-- No fragment is lost. -/
@[simp] theorem length_assignSequences : (assignSequences lastSeqNo ps).2.length = ps.length := by
  induction ps generalizing lastSeqNo with
  | nil => rfl
  | cons p ps ih => simp [assignSequences, ih]

end

/-! ### What is sent -/

/-- The packet goes out as a whole: the receiver finds no index but 0 and no count but 1. -/
structure IsWhole (np : NetPacket) (f : Packet) : Prop where
  fragment_eq : f.value Field.fragment = some np.netPkt
  fragIndex_eq : f.has Field.fragIndex = false ∨ f.getNumber Field.fragIndex = some 0
  fragCount_eq : f.has Field.fragCount = false ∨ f.getNumber Field.fragCount = some 1
  headers_eq : f.headers = np.packet.headers

/-- The packet goes out in numbered fragments: `first` is the number of the first of them. -/
structure IsSeries (np : NetPacket) (first : UInt64) (frags : List Packet) : Prop where
  two_le : 2 ≤ frags.length
  payloads : ∃ cs : List (List UInt8), cs.flatten = np.netPkt ∧ (∀ c ∈ cs, c ≠ []) ∧
    frags.map (fun f => f.value Field.fragment) = cs.map some
  fragIndex_eq : ∀ j f, frags[j]? = some f → f.getNumber Field.fragIndex = some (UInt64.ofNat j)
  fragCount_eq : ∀ f ∈ frags, f.getNumber Field.fragCount = some (UInt64.ofNat frags.length)
  sequence_eq : ∀ j f, frags[j]? = some f →
    f.getNumber Field.sequence = some (first + UInt64.ofNat j)
  headers_eq : ∀ f, frags.head? = some f → f.headers = np.packet.headers

/-- What one call of `sendNetPacket` passes to the transport, from one `m_lastSeqNo` to the next:
nothing, the whole packet, or a series that uses up one number per fragment. -/
inductive Sends (np : NetPacket) (nMaxFragments lastSeqNo : UInt64) :
    UInt64 → List Packet → Prop
  | nothing : Sends np nMaxFragments lastSeqNo lastSeqNo []
  | whole {f : Packet} (h : IsWhole np f) : Sends np nMaxFragments lastSeqNo lastSeqNo [f]
  | series {frags : List Packet} (h : IsSeries np (lastSeqNo + 1) frags)
      (hlimit : frags.length ≤ nMaxFragments.toNat) :
      Sends np nMaxFragments lastSeqNo (lastSeqNo + UInt64.ofNat frags.length) frags

namespace NetPacket

variable (np : NetPacket)

/-- A packet that is not fragmented. -/
theorem isWhole_packet : IsWhole np np.packet where
  fragment_eq := np.fragment_eq
  fragIndex_eq := .inl np.fragIndex_absent
  fragCount_eq := .inl np.fragCount_absent
  headers_eq := rfl

/-- A packet that is one fragment. -/
theorem isWhole_mkFragment : IsWhole np (mkFragment np.packet 1 0 np.netPkt) where
  fragment_eq := by simp
  fragIndex_eq := .inr (by simp [getNumber])
  fragCount_eq := .inr (by simp [getNumber])
  headers_eq := headers_mkFragment_zero np 1 np.netPkt

/-- A packet of several fragments. -/
theorem isSeries_assignSequences {cs : List (List UInt8)} (lastSeqNo : UInt64)
    (hflatten : cs.flatten = np.netPkt) (hne : ∀ c ∈ cs, c ≠ []) (htwo : 2 ≤ cs.length) :
    IsSeries np (lastSeqNo + 1)
      (assignSequences lastSeqNo (cs.mapIdx (mkFragment np.packet cs.length))).2 := by
  have hget : ∀ j f,
      (assignSequences lastSeqNo (cs.mapIdx (mkFragment np.packet cs.length))).2[j]? = some f →
      ∃ c, cs[j]? = some c ∧ f = (mkFragment np.packet cs.length j c).set sequence
        (nonNegativeInteger (lastSeqNo + 1 + UInt64.ofNat j)) := by
    intro j f hf
    rw [getElem?_assignSequences, getElem?_mapIdx, Option.map_map] at hf
    grind
  have hlength : (assignSequences lastSeqNo
      (cs.mapIdx (mkFragment np.packet cs.length))).2.length = cs.length := by simp
  refine ⟨by omega, ⟨cs, hflatten, hne, ?_⟩, ?_, ?_, ?_, ?_⟩
  · apply ext_getElem?
    intro j
    rw [getElem?_map, getElem?_assignSequences, getElem?_mapIdx, getElem?_map,
      Option.map_map, Option.map_map]
    rcases cs[j]? with - | c
    · rfl
    · simp [value_set_of_ne (show sequence ≠ fragment by decide)]
  · intro j f hf
    obtain ⟨c, -, rfl⟩ := hget j f hf
    rw [getNumber, value_set_of_ne (by decide)]
    simp
  · intro f hf
    obtain ⟨j, hj⟩ := mem_iff_getElem?.mp hf
    obtain ⟨c, -, rfl⟩ := hget j f hj
    rw [hlength, getNumber, value_set_of_ne (by decide)]
    simp
  · intro j f hf
    obtain ⟨c, -, rfl⟩ := hget j f hf
    simp [getNumber]
  · intro f hf
    rw [head?_eq_getElem?] at hf
    obtain ⟨c, -, rfl⟩ := hget 0 f hf
    rw [headers_set (by decide), headers_mkFragment_zero]

/-- A fragment fits in the MTU. -/
theorem wireSize_le_of_mem {mtu : ℕ} (hroom : np.HasRoom mtu) (lastSeqNo : UInt64) (n : ℕ)
    {f : Packet}
    (hf : f ∈ (assignSequences lastSeqNo
      ((np.payloads mtu).mapIdx (mkFragment np.packet n))).2) : f.wireSize ≤ mtu := by
  obtain ⟨j, hj⟩ := mem_iff_getElem?.mp hf
  rw [getElem?_assignSequences, getElem?_mapIdx, Option.map_map] at hj
  obtain ⟨c, hc, rfl⟩ := Option.map_eq_some_iff.mp hj
  have hsize := elementsSize_numbered_le np n j c (lastSeqNo + 1 + UInt64.ofNat j)
  have hwire := Packet.wireSize_le ((mkFragment np.packet n j c).set sequence
    (nonNegativeInteger (lastSeqNo + 1 + UInt64.ofNat j)))
  have hfirst : np.firstPayloadSize mtu ≤
      mtu - (np.packet.clear fragment).elementsSize - maxFragOverhead := Nat.min_le_right _ _
  rw [Function.comp_apply]
  unfold payloads at hc
  rcases j with - | j
  · -- the first chunk leaves room for the headers of the packet
    have hlength : c.length ≤ np.firstPayloadSize mtu := by
      obtain ⟨fuel, hfuel⟩ := Nat.exists_eq_succ_of_ne_zero
        (length_pos_of_ne_nil np.netPkt_ne_nil).ne'
      rw [hfuel, chunks_cons _ fuel _ np.netPkt_ne_nil, getElem?_cons_zero] at hc
      cases hc
      rw [length_take]
      omega
    grind [slot, HasRoom]
  · have hlength := (length_of_mem_chunks (payloadSize_pos hroom)
      (firstPayloadSize_pos hroom) (mem_of_getElem? hc)).2
    have hslot : ((slot np.packet (j + 1)).clear fragment).elementsSize = 0 := rfl
    unfold HasRoom at hroom
    omega

/-- A packet that can be counted in 32 bits reaches the other side if it is within the MTU. -/
theorem transmit_eq {p : Packet} (htyped : p.Typed) (hsize : p.elementsSize + (1 + 9) < 2 ^ 32)
    (mtu : Option ℕ) : transmit mtu p = if ∀ m ∈ mtu, p.wireSize ≤ m then some p else none := by
  have hlength := p.wireLength_le
  rw [transmit, Packet.encoded_eq htyped (by omega)]
  simp [show p.wireLength < 4294967296 by omega, Except.toOption]

/-- All numbered fragments reach the other side. -/
theorem Fits.transmit_numbered {np : NetPacket} (hfits : np.Fits) {mtu : ℕ} (hroom : np.HasRoom mtu)
    (lastSeqNo : UInt64) (n : ℕ) {f : Packet}
    (hf : f ∈ (assignSequences lastSeqNo
      ((np.payloads mtu).mapIdx (mkFragment np.packet n))).2) :
    transmit (some mtu) f = some f := by
  have hwire := np.wireSize_le_of_mem hroom lastSeqNo n hf
  obtain ⟨j, hj⟩ := mem_iff_getElem?.mp hf
  rw [getElem?_assignSequences, getElem?_mapIdx, Option.map_map] at hj
  obtain ⟨c, hc, rfl⟩ := Option.map_eq_some_iff.mp hj
  have hle : c.length ≤ np.netPkt.length := by
    rw [← flatten_payloads hroom, length_flatten]
    exact le_sum_of_mem (mem_map_of_mem (mem_of_getElem? hc))
  have hsize := elementsSize_numbered_le np n j c (lastSeqNo + 1 + UInt64.ofNat j)
  have hslot := hfits.slot_add_lt j hle
  rw [Function.comp_apply] at hwire ⊢
  rw [transmit_eq ((typed_mkFragment np n j c).set (by decide) _) (by omega),
    if_pos (by simpa using hwire)]

/-- A packet with room for its headers is sent as a series. -/
theorem sendNetPacket_series (hfits : np.Fits) {opts : SendOptions} {mtu : ℕ} (lastSeqNo : UInt64)
    (hroom : np.HasRoom mtu) (htwo : 2 ≤ (np.payloads mtu).length)
    (hfragments : fragments opts np.packet (some mtu) =
      .ok (some ((np.payloads mtu).mapIdx (mkFragment np.packet (np.payloads mtu).length)))) :
    sendNetPacket opts lastSeqNo np.packet (some mtu) =
      .ok (lastSeqNo + UInt64.ofNat (np.payloads mtu).length, (assignSequences lastSeqNo
          ((np.payloads mtu).mapIdx (mkFragment np.packet (np.payloads mtu).length))).2) := by
  rw [sendNetPacket, hfragments]
  simp only [Except.map, length_mapIdx,
    if_pos (show 1 < (np.payloads mtu).length by omega), fst_assignSequences]
  rw [filterMap_congr fun f hf => hfits.transmit_numbered hroom lastSeqNo _ hf, filterMap_some]

/-- A packet that fits is sent as a whole. -/
theorem sends_of_whole {opts : SendOptions} {lastSeqNo : UInt64} {mtu : Option ℕ} {f : Packet}
    (hf : IsWhole np f) (htyped : f.Typed) (hsize : f.elementsSize + (1 + 9) < 2 ^ 32)
    (hsend : fragments opts np.packet mtu = .ok (some [f])) :
    ∃ lastSeqNo' frags, sendNetPacket opts lastSeqNo np.packet mtu = .ok (lastSeqNo', frags) ∧
      Sends np opts.nMaxFragments lastSeqNo lastSeqNo' frags := by
  have heq : sendNetPacket opts lastSeqNo np.packet mtu =
      .ok (lastSeqNo, [f].filterMap (transmit mtu)) := by
    rw [sendNetPacket, hsend]
    rfl
  refine ⟨lastSeqNo, _, heq, ?_⟩
  rw [filterMap_cons, transmit_eq htyped hsize]
  split_ifs
  · exact .whole hf
  · exact .nothing

variable {np} in
/-- The packet itself as a whole. -/
theorem Fits.sends_packet (hfits : np.Fits) {opts : SendOptions} (lastSeqNo : UInt64)
    {mtu : Option ℕ} (hsend : fragments opts np.packet mtu = .ok (some [np.packet])) :
    ∃ lastSeqNo' frags, sendNetPacket opts lastSeqNo np.packet mtu = .ok (lastSeqNo', frags) ∧
      Sends np opts.nMaxFragments lastSeqNo lastSeqNo' frags := by
  have hoverhead : maxFragOverhead = 50 := rfl
  unfold Fits at hfits
  exact np.sends_of_whole np.isWhole_packet np.typed (by omega) hsend

/-- `sendNetPacket` does not throw; it sends nothing, one whole packet, or a complete series. -/
theorem sendNetPacket_sends (hfits : np.Fits) (opts : SendOptions) (lastSeqNo : UInt64)
    (mtu : Option ℕ) :
    ∃ lastSeqNo' frags, sendNetPacket opts lastSeqNo np.packet mtu = .ok (lastSeqNo', frags) ∧
      Sends np opts.nMaxFragments lastSeqNo lastSeqNo' frags := by
  rcases mtu with - | mtu
  · exact hfits.sends_packet lastSeqNo rfl
  rcases hallow : opts.allowFragmentation with _ | _
  · exact hfits.sends_packet lastSeqNo (by simp [fragments, hallow])
  have hfragments : fragments opts np.packet (some mtu) =
      fragmentPacket opts.nMaxFragments np.packet mtu := by simp [fragments, hallow]
  rcases np.fragmentPacket_cases hfits opts.nMaxFragments mtu with hnone | hone |
    ⟨hroom, hlimit, hmany⟩
  · refine ⟨lastSeqNo, [], ?_, .nothing⟩
    rw [sendNetPacket, hfragments, hnone]
    rfl
  · exact hfits.sends_packet lastSeqNo (hfragments.trans hone)
  · by_cases htwo : 2 ≤ (np.payloads mtu).length
    · have hseries := np.isSeries_assignSequences lastSeqNo (flatten_payloads hroom)
        (fun c => ne_nil_of_mem_payloads hroom) htwo
      grind [Sends, length_assignSequences, np.sendNetPacket_series]
    -- one payload is the network packet as a whole
    have hflatten := flatten_payloads hroom
    have hone : np.payloads mtu = [np.netPkt] := by
      rcases hlist : np.payloads mtu with - | ⟨c, - | ⟨d, ds⟩⟩ <;> grind [np.netPkt_ne_nil]
    rw [hone] at hmany
    have hsize := elementsSize_mkFragment_le np 1 0 np.netPkt
    have hslot := hfits.slot_add_lt 0 (le_refl np.netPkt.length)
    exact np.sends_of_whole np.isWhole_mkFragment (typed_mkFragment np 1 0 np.netPkt) (by omega)
      (hfragments.trans hmany)

end NetPacket

end IcnDemo.Lp
