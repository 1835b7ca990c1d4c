import IcnDemo.Lp.Reassembler

/-!
# Messages from several senders

Senders pass network packets to their link services, and the fragments reach one reassembler in any
order, mixed and repeated.  Each message is described by the set of its indexes received so far; a
message is delivered once, when the set is complete.
-/

namespace IcnDemo.Lp

open List

/-! ### Senders -/

/-- One call of `sendNetPacket`: the packet, `m_lastSeqNo` before the call, and what was passed to
the transport. -/
structure Sent where
  packet : NetPacket
  lastSeqNo : UInt64
  frags : List Packet

namespace Sent

/-- The number of the first fragment. -/
def identifier (m : Sent) : UInt64 :=
  m.lastSeqNo + 1

/-- The packet was sent in fragments. -/
def Fragmented (m : Sent) : Prop :=
  2 ≤ m.frags.length

instance (m : Sent) : Decidable m.Fragmented :=
  inferInstanceAs (Decidable (2 ≤ m.frags.length))

end Sent

/-- A link service that sends packets one after the other, each with the MTU of that moment. -/
def sendAll (opts : SendOptions) : UInt64 → List (NetPacket × Option ℕ) → Except Fault (List Sent)
  | _, [] => .ok []
  | lastSeqNo, (np, mtu) :: rest => do
    let sent ← sendNetPacket opts lastSeqNo np.packet mtu
    let more ← sendAll opts sent.1 rest
    .ok (⟨np, lastSeqNo, sent.2⟩ :: more)

/-- A sender: its options, its last sequence number, and the packets it is given. -/
structure Sender where
  opts : SendOptions
  lastSeqNo : UInt64
  packets : List (NetPacket × Option ℕ)

/-- Everything the sender sends; a call that throws would end it. -/
def Sender.sents (sender : Sender) : List Sent :=
  match sendAll sender.opts sender.lastSeqNo sender.packets with
  | .ok ms => ms
  | .error _ => []

/-- The identifiers of the messages that were sent in fragments. -/
def identifiers (ms : List Sent) : List UInt64 :=
  (ms.filter fun m => decide m.Fragmented).map Sent.identifier

/-- The number of sequence numbers that the messages use up. -/
def numbered (ms : List Sent) : ℕ :=
  ((ms.filter fun m => decide m.Fragmented).map fun m => m.frags.length).sum

/-- Packets that fit are all sent. -/
theorem sendAll_ok (opts : SendOptions) (lastSeqNo : UInt64)
    {packets : List (NetPacket × Option ℕ)} (hfits : ∀ p ∈ packets, p.1.Fits) :
    ∃ ms, sendAll opts lastSeqNo packets = .ok ms ∧ ∀ m ∈ ms,
      ∃ lastSeqNo', Sends m.packet opts.nMaxFragments m.lastSeqNo lastSeqNo' m.frags := by
  induction packets generalizing lastSeqNo with
  | nil => exact ⟨[], rfl, by simp⟩
  | cons p rest ih =>
    obtain ⟨np, mtu⟩ := p
    obtain ⟨hnp, hrest⟩ := forall_mem_cons.mp hfits
    obtain ⟨lastSeqNo', frags, hsend, hsends⟩ := np.sendNetPacket_sends hnp opts lastSeqNo mtu
    obtain ⟨ms, hms, hall⟩ := ih lastSeqNo' hrest
    refine ⟨⟨np, lastSeqNo, frags⟩ :: ms, ?_, ?_⟩
    · simp only [sendAll, hsend, hms, bind, Except.bind]
    · grind

/-- A sender sends all its packets. -/
theorem Sender.sendAll_eq (sender : Sender) (hfits : ∀ p ∈ sender.packets, p.1.Fits) :
    sendAll sender.opts sender.lastSeqNo sender.packets = .ok sender.sents ∧
      ∀ m ∈ sender.sents, ∃ lastSeqNo',
        Sends m.packet sender.opts.nMaxFragments m.lastSeqNo lastSeqNo' m.frags := by
  obtain ⟨ms, hms, hall⟩ := sendAll_ok sender.opts sender.lastSeqNo hfits
  grind [sents]

/-- A whole packet takes no sequence number. -/
theorem Sends.not_fragmented {np : NetPacket} {n last last' : UInt64} {frags : List Packet}
    (h : Sends np n last last' frags) (hfew : ¬2 ≤ frags.length) : last' = last := by
  cases h with
  | nothing => rfl
  | whole _ => rfl
  | series hseries _ => exact absurd hseries.two_le hfew

/-- A packet of several fragments is a series. -/
theorem Sends.fragmented {np : NetPacket} {n last last' : UInt64} {frags : List Packet}
    (h : Sends np n last last' frags) (hmany : 2 ≤ frags.length) :
    IsSeries np (last + 1) frags ∧ frags.length ≤ n.toNat ∧
      last' = last + UInt64.ofNat frags.length := by
  cases h with
  | nothing | whole _ => simp at hmany
  | series hseries hlimit => exact ⟨hseries, hlimit, rfl⟩

/-- The identifiers behind a message of `n` fragments are further on than its own. -/
theorem nodup_cons_of_further {a : UInt64} {n k : ℕ} {ids : List UInt64} (hnodup : ids.Nodup)
    (hfar : ∀ id ∈ ids, ∃ d, id = a + UInt64.ofNat n + 1 + UInt64.ofNat d ∧ d + 2 ≤ k)
    (hn : 2 ≤ n) (h : n + k ≤ 2 ^ 64) :
    ((a + 1) :: ids).Nodup ∧
      ∀ id ∈ (a + 1) :: ids, ∃ d, id = a + 1 + UInt64.ofNat d ∧ d + 2 ≤ n + k := by
  have hshift : ∀ id ∈ ids, ∃ d, id = a + 1 + UInt64.ofNat d ∧ 0 < d ∧ d + 2 ≤ n + k := by
    intro id hid
    obtain ⟨d, rfl, hd⟩ := hfar id hid
    refine ⟨n + d, ?_, by omega, by omega⟩
    rw [UInt64.ofNat_add]
    ac_rfl
  refine ⟨nodup_cons.mpr ⟨?_, hnodup⟩, ?_⟩
  · intro hmem
    obtain ⟨d, hd, hpos, hlt⟩ := hshift _ hmem
    have hzero : UInt64.ofNat d = 0 := by grind
    have hnat := congrArg UInt64.toNat hzero
    rw [UInt64.toNat_ofNat', Nat.mod_eq_of_lt (by omega), UInt64.toNat_zero] at hnat
    omega
  · intro id hid
    rcases mem_cons.mp hid with rfl | hid
    · exact ⟨0, by simp, by omega⟩
    · obtain ⟨d, hd, -, hlt⟩ := hshift id hid
      exact ⟨d, hd, hlt⟩

/-- As long as a sender uses up at most `2 ^ 64` sequence numbers, also if they wrap around, no two
of its messages have the same identifier. -/
theorem nodup_identifiers (opts : SendOptions) (lastSeqNo : UInt64)
    {packets : List (NetPacket × Option ℕ)} (hfits : ∀ p ∈ packets, p.1.Fits) {ms : List Sent}
    (hms : sendAll opts lastSeqNo packets = .ok ms) (h : numbered ms ≤ 2 ^ 64) :
    (identifiers ms).Nodup := by
  suffices hboth : (identifiers ms).Nodup ∧ ∀ id ∈ identifiers ms,
      ∃ d, id = lastSeqNo + 1 + UInt64.ofNat d ∧ d + 2 ≤ numbered ms from hboth.1
  induction packets generalizing lastSeqNo ms with
  | nil =>
    cases hms
    simp [identifiers]
  | cons p rest ih =>
    obtain ⟨np, mtu⟩ := p
    obtain ⟨hnp, hrest⟩ := forall_mem_cons.mp hfits
    obtain ⟨lastSeqNo', frags, hsend, hsends⟩ := np.sendNetPacket_sends hnp opts lastSeqNo mtu
    obtain ⟨ms', hms', -⟩ := sendAll_ok opts lastSeqNo' hrest
    simp only [sendAll, hsend, hms', bind, Except.bind, Except.ok.injEq] at hms
    subst hms
    by_cases hmany : 2 ≤ frags.length
    · obtain ⟨-, -, rfl⟩ := hsends.fragmented hmany
      have hnumbered : numbered (⟨np, lastSeqNo, frags⟩ :: ms') = frags.length + numbered ms' := by
        simp [numbered, Sent.Fragmented, hmany]
      have hids : identifiers (⟨np, lastSeqNo, frags⟩ :: ms') =
          (lastSeqNo + 1) :: identifiers ms' := by
        simp [identifiers, Sent.Fragmented, hmany, Sent.identifier]
      obtain ⟨hnodup, hfar⟩ := ih _ hrest hms' (by omega)
      rw [hids, hnumbered]
      exact nodup_cons_of_further hnodup hfar hmany (hnumbered ▸ h)
    · have hsame := hsends.not_fragmented hmany
      subst hsame
      have hnumbered : numbered (⟨np, lastSeqNo', frags⟩ :: ms') = numbered ms' := by
        simp [numbered, Sent.Fragmented, hmany]
      have hids : identifiers (⟨np, lastSeqNo', frags⟩ :: ms') = identifiers ms' := by
        simp [identifiers, Sent.Fragmented, hmany]
      rw [hnumbered] at h
      rw [hids, hnumbered]
      exact ih _ hrest hms' h

/-! ### Arrivals -/

/-- A packet that reaches the reassembler, with the time of its arrival. -/
structure Arrival where
  now : ℕ
  remoteEndpoint : EndpointId
  packet : Packet

/-- The arrival carries a fragment of the message that the endpoint sent. -/
def Arrival.Of (x : Arrival) (e : EndpointId) (m : Sent) : Prop :=
  x.remoteEndpoint = e ∧ x.packet ∈ m.frags

instance (x : Arrival) (e : EndpointId) (m : Sent) : Decidable (x.Of e m) :=
  inferInstanceAs (Decidable (_ ∧ _))

variable (opts : ReceiveOptions)

/-- The state and the outcome after one arrival. -/
def receive (s : PartialPackets) (x : Arrival) : PartialPackets × Outcome :=
  receiveFragment opts s x.now x.remoteEndpoint x.packet

/-- The state after all arrivals, and their outcomes. -/
def receiveAll (opts : ReceiveOptions) :
    PartialPackets → List Arrival → PartialPackets × List Outcome
  | s, [] => (s, [])
  | s, x :: xs =>
    let rest := receiveAll opts (receive opts s x).1 xs
    (rest.1, (receive opts s x).2 :: rest.2)

/-- The outcomes, other than `nothing`, of the arrivals that carry a fragment of the message. -/
def deliveries (s : PartialPackets) (e : EndpointId) (m : Sent)
    (xs : List Arrival) : List Outcome :=
  ((xs.zip (receiveAll opts s xs).2).filter fun r =>
    decide (r.1.Of e m ∧ r.2 ≠ .nothing)).map Prod.snd

/-- The deliveries with one arrival more. -/
theorem deliveries_cons (s : PartialPackets) (e : EndpointId) (m : Sent)
    (x : Arrival) (xs : List Arrival) :
    deliveries opts s e m (x :: xs) =
      (if x.Of e m ∧ (receive opts s x).2 ≠ .nothing then [(receive opts s x).2] else []) ++
        deliveries opts (receive opts s x).1 e m xs := by grind [deliveries, receiveAll]

/-- The deliveries of two parts. -/
theorem deliveries_append (s : PartialPackets) (e : EndpointId) (m : Sent) (xs ys : List Arrival) :
    deliveries opts s e m (xs ++ ys) =
      deliveries opts s e m xs ++ deliveries opts (receiveAll opts s xs).1 e m ys := by
  induction xs generalizing s with
  | nil => rfl
  | cons x xs ih =>
    rw [cons_append, deliveries_cons, deliveries_cons, ih, append_assoc]
    rfl

/-- Other arrivals deliver nothing of a packet. -/
theorem deliveries_eq_nil {opts : ReceiveOptions} {e : EndpointId} {m : Sent} {xs : List Arrival}
    (h : ∀ x ∈ xs, ¬x.Of e m) (s : PartialPackets) : deliveries opts s e m xs = [] := by
  induction xs generalizing s with
  | nil => rfl
  | cons x xs ih => grind [deliveries_cons]

/-- The message is complete with the arrival `x`: the other fragments came before, possibly more
than once, and no fragment of it comes later. -/
structure CompletesWith (e : EndpointId) (m : Sent) (before : List Arrival) (x : Arrival)
    (after : List Arrival) : Prop where
  endpoint : x.remoteEndpoint = e
  mem : x.packet ∈ m.frags
  new : ∀ y ∈ before, y.remoteEndpoint = e → y.packet ≠ x.packet
  all : ∀ f ∈ m.frags, f = x.packet ∨ ∃ y ∈ before, y.remoteEndpoint = e ∧ y.packet = f
  late : ∀ y ∈ after, y.remoteEndpoint = e → y.packet ∉ m.frags

/-- What the reassembler may meet: messages within its fragment limit, with less than `2 ^ 31`
bytes if they come in fragments, and with different identifiers if they come from one endpoint. -/
structure Setting (opts : ReceiveOptions) (sents : EndpointId → List Sent) : Prop where
  limit : 1 ≤ opts.nMaxFragments
  sent : ∀ e, ∀ m ∈ sents e, ∃ n last', n ≤ opts.nMaxFragments ∧
    Sends m.packet n m.lastSeqNo last' m.frags
  small : ∀ e, ∀ m ∈ sents e, m.Fragmented → m.packet.netPkt.length < 2 ^ 31
  distinct : ∀ e, (identifiers (sents e)).Nodup

/-- Of every message some fragments are held, but not all. -/
def Tracks (sents : EndpointId → List Sent) (s : PartialPackets) : Prop :=
  ∀ e, ∀ m ∈ sents e, m.Fragmented →
    ∃ R ⊂ Finset.range m.frags.length, Holds s (e, m.identifier) m.frags R

/-- A series is not complete at the beginning. -/
theorem Sent.Fragmented.empty_ssubset {m : Sent} (h : m.Fragmented) :
    ∅ ⊂ Finset.range m.frags.length := by
  have htwo : 2 ≤ m.frags.length := h
  rw [Finset.empty_ssubset, Finset.nonempty_range_iff]
  omega

/-- Nothing is held at the beginning. -/
theorem holds_empty (key : Key) (frags : List Packet) : Holds (fun _ => none) key frags ∅ := by
  simp [Holds]

/-- The receiver has part of every series at the beginning. -/
theorem tracks_empty (sents : EndpointId → List Sent) : Tracks sents fun _ => none :=
  fun _ _ _ hmany => ⟨∅, hmany.empty_ssubset, holds_empty _ _⟩

namespace Setting

variable {opts : ReceiveOptions} {sents : EndpointId → List Sent} {s : PartialPackets}
  {e : EndpointId} {m : Sent} {x : Arrival}

variable (hset : Setting opts sents)

include hset

section

variable (hm : m ∈ sents e)

include hm

/-- A fragmented packet is a series. -/
theorem isSeries (hmany : m.Fragmented) :
    IsSeries m.packet m.identifier m.frags ∧ m.frags.length ≤ opts.nMaxFragments.toNat := by
  obtain ⟨n, last', hn, hsends⟩ := hset.sent e m hm
  obtain ⟨hseries, hlimit, -⟩ := hsends.fragmented hmany
  exact ⟨hseries, Nat.le_trans hlimit (UInt64.le_iff_toNat_le.mp hn)⟩

/-- Another packet is one whole fragment. -/
theorem isWhole (hfew : ¬m.Fragmented)
    {f : Packet} (hf : f ∈ m.frags) : m.frags = [f] ∧ IsWhole m.packet f := by
  obtain ⟨n, last', -, hsends⟩ := hset.sent e m hm
  obtain ⟨packet, last, frags⟩ := m
  cases hsends with
  | nothing => simp at hf
  | whole h =>
    rw [mem_singleton] at hf
    subst hf
    exact ⟨rfl, h⟩
  | series h _ => exact absurd h.two_le hfew

/-- The identifier tells the series of an endpoint apart. -/
theorem eq_of_identifier {m' : Sent} (hm' : m' ∈ sents e) (hmany : m.Fragmented)
    (hmany' : m'.Fragmented) (heq : m.identifier = m'.identifier) : m = m' :=
  inj_on_of_nodup_map (hset.distinct e) (mem_filter.mpr ⟨hm, decide_eq_true hmany⟩)
    (mem_filter.mpr ⟨hm', decide_eq_true hmany'⟩) heq

/-- A whole packet is delivered when it arrives. -/
theorem receive_whole (hx : x.Of e m) (hfew : ¬m.Fragmented) :
    receive opts s x = (s, .delivered m.packet.netPkt x.packet) :=
  (hset.isWhole hm hfew hx.2).2.receiveFragment_eq hset.limit s x.now x.remoteEndpoint

/-- What an arrival does to its series. -/
theorem receive_own (hmany : m.Fragmented)
    (he : x.remoteEndpoint = e) {j : ℕ} (hj : m.frags[j]? = some x.packet) {R : Finset ℕ}
    (hR : R ⊂ Finset.range m.frags.length) (hold : Holds s (e, m.identifier) m.frags R) :
    (∀ k ≠ (e, m.identifier), (receive opts s x).1 k = s k) ∧
    ((insert j R ⊂ Finset.range m.frags.length ∧
        Holds (receive opts s x).1 (e, m.identifier) m.frags (insert j R) ∧
        (receive opts s x).2 = .nothing) ∨
     (insert j R = Finset.range m.frags.length ∧
        Holds (receive opts s x).1 (e, m.identifier) m.frags ∅ ∧
        (receive opts s x).2 = .delivered m.packet.netPkt (m.frags.headD Packet.empty))) := by
  obtain ⟨hseries, hlimit⟩ := hset.isSeries hm hmany
  subst he
  obtain ⟨s', o, heq, hother, hown⟩ :=
    hseries.receive_series hlimit x.now hj hold (hset.small _ m hm hmany) hR
  rw [receive, heq]
  exact ⟨hother, hown⟩

end

section

variable (htracks : Tracks sents s) (hfrom : ∃ m ∈ sents x.remoteEndpoint, x.packet ∈ m.frags)

include htracks hfrom

/-- What an arrival does to the other series: nothing. -/
theorem receive_other (hm : m ∈ sents e) (hmany : m.Fragmented) (hx : ¬x.Of e m) :
    (receive opts s x).1 (e, m.identifier) = s (e, m.identifier) := by
  obtain ⟨m', hm', hx'⟩ := hfrom
  by_cases hmany' : m'.Fragmented
  · obtain ⟨R, hR, hold⟩ := htracks _ m' hm' hmany'
    obtain ⟨j, hj⟩ := mem_iff_getElem?.mp hx'
    apply (hset.receive_own hm' hmany' rfl hj hR hold).1
    intro hkey
    obtain ⟨he, hid⟩ := Prod.mk.inj hkey
    subst he
    have heq := hset.eq_of_identifier hm hm' hmany hmany' hid
    subst heq
    exact hx ⟨rfl, hx'⟩
  · rw [hset.receive_whole hm' ⟨rfl, hx'⟩ hmany']

/-- An arrival keeps track of all series, and throws nothing. -/
theorem receive_tracks :
    Tracks sents (receive opts s x).1 ∧ ∀ fault, (receive opts s x).2 ≠ .thrown fault := by
  constructor
  · intro e m hm hmany
    obtain ⟨R, hR, hold⟩ := htracks e m hm hmany
    by_cases hx : x.Of e m
    · obtain ⟨j, hj⟩ := mem_iff_getElem?.mp hx.2
      rcases (hset.receive_own hm hmany hx.1 hj hR hold).2 with ⟨hR', hold', -⟩ | ⟨-, hold', -⟩
      all_goals grind
    · grind [Holds, hset.receive_other]
  intro fault
  obtain ⟨m, hm, hx⟩ := hfrom
  by_cases hmany : m.Fragmented
  · obtain ⟨R, hR, hold⟩ := htracks _ m hm hmany
    obtain ⟨j, hj⟩ := mem_iff_getElem?.mp hx
    rcases (hset.receive_own hm hmany rfl hj hR hold).2 with ⟨-, -, ho⟩ | ⟨-, -, ho⟩
    · rw [ho]
      simp
    · rw [ho]
      simp
  · rw [hset.receive_whole hm ⟨rfl, hx⟩ hmany]
    simp

end

/-- All arrivals keep track of all series. -/
theorem receiveAll_tracks (htracks : Tracks sents s) {xs : List Arrival}
    (hfrom : ∀ x ∈ xs, ∃ m ∈ sents x.remoteEndpoint, x.packet ∈ m.frags) :
    Tracks sents (receiveAll opts s xs).1 ∧ ∀ fault, .thrown fault ∉ (receiveAll opts s xs).2 := by
  induction xs generalizing s with
  | nil => exact ⟨htracks, by simp [receiveAll]⟩
  | cons x xs ih =>
    rw [forall_mem_cons] at hfrom
    obtain ⟨htracks', hthrow⟩ := hset.receive_tracks htracks hfrom.1
    obtain ⟨hrest, hthrows⟩ := ih htracks' hfrom.2
    refine ⟨hrest, fun fault hmem => ?_⟩
    rcases mem_cons.mp hmem with heq | hmem
    · exact hthrow fault heq.symm
    · exact hthrows fault hmem

/-- A fragment is at one place of its series. -/
theorem index_unique (hm : m ∈ sents e) (hmany : m.Fragmented)
    {j k : ℕ} {f : Packet} (hj : m.frags[j]? = some f) (hk : m.frags[k]? = some f) : j = k := by
  obtain ⟨hseries, hlimit⟩ := hset.isSeries hm hmany
  have heq := (hseries.fragIndex_eq j f hj).symm.trans (hseries.fragIndex_eq k f hk)
  have hnat := congrArg UInt64.toNat (Option.some.inj heq)
  rwa [IsSeries.toNat_ofNat_index hlimit hj, IsSeries.toNat_ofNat_index hlimit hk] at hnat

/-- As long as the fragment with index `i` has not come, nothing is delivered, and the map holds
exactly the fragments that have come. -/
theorem deliveries_before (hm : m ∈ sents e) (hmany : m.Fragmented)
    {i : ℕ} (hi : i < m.frags.length) {xs : List Arrival}
    (hfrom : ∀ x ∈ xs, ∃ m ∈ sents x.remoteEndpoint, x.packet ∈ m.frags)
    (hmissing : ∀ x ∈ xs, x.remoteEndpoint = e → m.frags[i]? ≠ some x.packet)
    {R : Finset ℕ} (hiR : i ∉ R) (hR : R ⊂ Finset.range m.frags.length)
    (htracks : Tracks sents s) (hold : Holds s (e, m.identifier) m.frags R) :
    deliveries opts s e m xs = [] ∧ ∃ R' ⊂ Finset.range m.frags.length,
        Holds (receiveAll opts s xs).1 (e, m.identifier) m.frags R' ∧ ∀ j,
          j ∈ R' ↔ j ∈ R ∨ ∃ x ∈ xs, x.remoteEndpoint = e ∧ m.frags[j]? = some x.packet := by
  induction xs generalizing s R with
  | nil => exact ⟨rfl, R, hR, hold, by simp⟩
  | cons x xs ih =>
    rw [forall_mem_cons] at hfrom hmissing
    have htracks' := (hset.receive_tracks htracks hfrom.1).1
    rw [deliveries_cons]
    by_cases hx : x.Of e m
    · obtain ⟨j, hj⟩ := mem_iff_getElem?.mp hx.2
      have hij : i ≠ j := by
        rintro rfl
        exact hmissing.1 hx.1 hj
      have hiR' : i ∉ insert j R := by simp [hij, hiR]
      rcases (hset.receive_own hm hmany hx.1 hj hR hold).2 with
        ⟨hR', hold', ho⟩ | ⟨hfull, -, -⟩
      · obtain ⟨hnone, R'', hR'', hold'', hmem⟩ :=
          ih hfrom.2 hmissing.2 hiR' hR' htracks' hold'
        rw [hnone, if_neg (by simp [ho])]
        refine ⟨rfl, R'', hR'', hold'', fun k => ?_⟩
        rw [hmem, Finset.mem_insert]
        constructor
        · rintro ((rfl | hk) | ⟨y, hy, hye, hyk⟩)
          · exact .inr ⟨x, mem_cons_self, hx.1, hj⟩
          · exact .inl hk
          · exact .inr ⟨y, mem_cons_of_mem _ hy, hye, hyk⟩
        rintro (hk | ⟨y, hy, hye, hyk⟩)
        · exact .inl (.inr hk)
        · rcases mem_cons.mp hy with rfl | hy
          · exact .inl (.inl (hset.index_unique hm hmany hyk hj))
          · exact .inr ⟨y, hy, hye, hyk⟩
      · rw [hfull] at hiR'
        exact absurd (Finset.mem_range.mpr hi) hiR'
    · have hold' : Holds (receive opts s x).1 (e, m.identifier) m.frags R := by
        unfold Holds at hold ⊢
        rwa [hset.receive_other htracks hfrom.1 hm hmany hx]
      obtain ⟨hnone, R', hR', hold'', hmem⟩ := ih hfrom.2 hmissing.2 hiR hR htracks' hold'
      rw [hnone, if_neg (fun h => hx h.1)]
      refine ⟨rfl, R', hR', hold'', fun k => ?_⟩
      rw [hmem, or_congr_right]
      constructor
      · rintro ⟨y, hy, hyk⟩
        exact ⟨y, mem_cons_of_mem _ hy, hyk⟩
      · rintro ⟨y, hy, hye, hyk⟩
        rcases mem_cons.mp hy with rfl | hy
        · exact absurd ⟨hye, mem_of_getElem? hyk⟩ hx
        · exact ⟨y, hy, hye, hyk⟩

/-- A packet is delivered once, when its last fragment arrives. -/
theorem deliveries_eq (hm : m ∈ sents e) {before after : List Arrival}
    (hdone : CompletesWith e m before x after)
    (hfrom : ∀ y ∈ before ++ x :: after, ∃ m ∈ sents y.remoteEndpoint, y.packet ∈ m.frags) :
    deliveries opts (fun _ => none) e m (before ++ x :: after) =
      [.delivered m.packet.netPkt (m.frags.headD Packet.empty)] := by
  have hlate : ∀ y ∈ after, ¬y.Of e m := fun y hy hof => hdone.late y hy hof.1 hof.2
  rw [deliveries_append, deliveries_cons, deliveries_eq_nil hlate]
  by_cases hmany : m.Fragmented
  · obtain ⟨i, hi⟩ := List.mem_iff_getElem?.mp hdone.mem
    have hlt : i < m.frags.length := (List.getElem?_eq_some_iff.mp hi).1
    have hmissing : ∀ y ∈ before, y.remoteEndpoint = e → m.frags[i]? ≠ some y.packet := by
      intro y hy hye hyi
      exact hdone.new y hy hye (Option.some.inj (hyi.symm.trans hi))
    obtain ⟨hnone, R, hR, hold, hmem⟩ := hset.deliveries_before hm hmany hlt
      (fun y hy => hfrom y (mem_append_left _ hy)) hmissing (Finset.notMem_empty i)
      hmany.empty_ssubset (tracks_empty sents) (holds_empty _ _)
    -- every index but `i` has come
    have hfull : insert i R = Finset.range m.frags.length := by
      refine (Finset.insert_subset (Finset.mem_range.mpr hlt) hR.subset).antisymm fun j hj => ?_
      have hjlt : j < m.frags.length := Finset.mem_range.mp hj
      have hf : m.frags[j]? = some m.frags[j] := getElem?_eq_getElem hjlt
      rw [Finset.mem_insert, hmem]
      rcases hdone.all _ (mem_of_getElem? hf) with heq | ⟨y, hy, hye, hyf⟩
      · rw [heq] at hf
        exact .inl (hset.index_unique hm hmany hf hi)
      · grind
    rcases (hset.receive_own hm hmany hdone.endpoint hi hR hold).2 with
      ⟨hpart, -, -⟩ | ⟨-, -, ho⟩
    · exact absurd hfull hpart.ne
    · rw [hnone, ho, if_pos ⟨⟨hdone.endpoint, hdone.mem⟩, by simp⟩]
      rfl
  · -- a whole packet arrives once
    obtain ⟨hone, -⟩ := hset.isWhole hm hmany hdone.mem
    have hbefore : ∀ y ∈ before, ¬y.Of e m := by
      rintro y hy ⟨hye, hyf⟩
      rw [hone, mem_singleton] at hyf
      exact hdone.new y hy hye hyf
    rw [deliveries_eq_nil hbefore, hset.receive_whole hm ⟨hdone.endpoint, hdone.mem⟩ hmany,
      if_pos ⟨⟨hdone.endpoint, hdone.mem⟩, by simp⟩, hone]
    rfl

end Setting

/-! ### The round trip -/

/-- The first fragment has the headers of the packet. -/
theorem Sends.headers_eq {np : NetPacket} {n last last' : UInt64} {frags : List Packet}
    (h : Sends np n last last' frags) {f : Packet} (hf : frags.head? = some f) :
    f.headers = np.packet.headers := by
  cases h with
  | nothing => cases hf
  | whole hwhole =>
    cases hf
    exact hwhole.headers_eq
  | series hseries _ => exact hseries.headers_eq f hf

/-- Fragments that come in any order, repeated and mixed with those of other messages and other
endpoints, give the network packet back once, behind the headers it was sent with. -/
theorem reassembly_delivers_once (opts : ReceiveOptions) (senders : EndpointId → Sender)
    (hone : 1 ≤ opts.nMaxFragments)
    (hlimit : ∀ e, (senders e).opts.nMaxFragments ≤ opts.nMaxFragments)
    (hfits : ∀ e, ∀ p ∈ (senders e).packets, p.1.Fits)
    (hsmall : ∀ e, ∀ m ∈ (senders e).sents, m.Fragmented → m.packet.netPkt.length < 2 ^ 31)
    (hids : ∀ e, (identifiers (senders e).sents).Nodup)
    (e : EndpointId) (m : Sent) (hm : m ∈ (senders e).sents)
    (before : List Arrival) (x : Arrival) (after : List Arrival)
    (hdone : CompletesWith e m before x after)
    (hfrom : ∀ y ∈ before ++ x :: after,
      ∃ m ∈ (senders y.remoteEndpoint).sents, y.packet ∈ m.frags) :
    (∃ first, m.frags.head? = some first ∧ first.headers = m.packet.packet.headers ∧
      deliveries opts (fun _ => none) e m (before ++ x :: after) =
        [.delivered m.packet.netPkt first]) ∧
    ∀ fault, .thrown fault ∉ (receiveAll opts (fun _ => none) (before ++ x :: after)).2 := by
  have hset : Setting opts fun e => (senders e).sents := {
    limit := hone
    sent := by
      intro e m hm
      obtain ⟨last', hsends⟩ := ((senders e).sendAll_eq (hfits e)).2 m hm
      exact ⟨_, last', hlimit e, hsends⟩
    small := hsmall
    distinct := hids }
  obtain ⟨first, hfirst⟩ : ∃ first, m.frags.head? = some first := by
    rcases hfrags : m.frags with - | ⟨f, fs⟩
    · have hmem := hdone.mem
      rw [hfrags] at hmem
      simp at hmem
    · exact ⟨f, rfl⟩
  obtain ⟨last', hsends⟩ := ((senders e).sendAll_eq (hfits e)).2 m hm
  refine ⟨⟨first, hfirst, hsends.headers_eq hfirst, ?_⟩,
    (hset.receiveAll_tracks (tracks_empty _) hfrom).2⟩
  rw [hset.deliveries_eq hm hdone hfrom, headD_eq_head?_getD, hfirst]
  rfl

namespace Wrapping

/-- An Interest of 62 bytes. -/
def interest : NetPacket where
  packet := ⟨[⟨816, [9]⟩, ⟨80, 5 :: 60 :: List.replicate 60 7⟩]⟩
  netPkt := 5 :: 60 :: List.replicate 60 7
  fragment_eq := by decide
  readBlock_eq := by decide
  fragIndex_absent := by decide
  fragCount_absent := by decide
  typed := by decide

/-- Endpoint 3 has used up all numbers but one and sends the Interest; the others send nothing. -/
def senders (e : EndpointId) : Sender :=
  ⟨⟨true, 400⟩, 18446744073709551614, if e = 3 then [(interest, some 90)] else []⟩

/-- What endpoint 3 sends. -/
def message : Sent :=
  ⟨interest, 18446744073709551614,
    ((sendNetPacket ⟨true, 400⟩ 18446744073709551614 interest.packet (some 90)).toOption.getD
      (0, [])).2⟩

/-- The second fragment of the message, twice. -/
def before : List Arrival :=
  (message.frags.drop 1 ++ message.frags.drop 1).map fun f => ⟨0, 3, f⟩

/-- The first fragment of the message. -/
def last : Arrival :=
  ⟨1, 3, message.frags.headD Packet.empty⟩

/-- The packets of these senders fit. -/
theorem fits_senders (e : EndpointId) : ∀ p ∈ (senders e).packets, p.1.Fits := by
  unfold senders
  split_ifs
  · intro p hp
    rw [mem_singleton.mp hp]
    decide
  · exact fun p hp => absurd hp not_mem_nil

/-- What these senders send. -/
theorem sents_senders (e : EndpointId) : (senders e).sents = if e = 3 then [message] else [] := by
  obtain ⟨last', frags, hsend, -⟩ :=
    interest.sendNetPacket_sends (by decide) ⟨true, 400⟩ 18446744073709551614 (some 90)
  by_cases he : e = 3
  · simp [Sender.sents, senders, he, sendAll, hsend, message, bind, Except.bind, Except.toOption]
  · simp [Sender.sents, senders, he, sendAll]

end Wrapping

open Wrapping in
/-- A packet whose sequence numbers wrap around is delivered once. -/
theorem reassembly_delivers_once_wrapping : (∃ first, message.frags.head? = some first ∧
      first.headers = message.packet.packet.headers ∧
      deliveries ⟨400, 500⟩ (fun _ => none) 3 message (before ++ last :: []) =
        [.delivered message.packet.netPkt first]) ∧
    ∀ fault, .thrown fault ∉ (receiveAll ⟨400, 500⟩ (fun _ => none) (before ++ last :: [])).2 := by
  have hmem : ∀ {e m}, m ∈ (senders e).sents → m = message := by grind [sents_senders]
  have hcome : ∀ y ∈ before ++ last :: [], y.remoteEndpoint = 3 ∧ y.packet ∈ message.frags := by
    decide +kernel
  refine reassembly_delivers_once ⟨400, 500⟩ senders (by decide)
    (fun _ => UInt64.le_refl 400) fits_senders ?_ ?_ 3 message ?_ before last [] ?_ ?_
  · intro e m hm _
    rw [hmem hm]
    decide
  · intro e
    refine nodup_identifiers _ _ (fits_senders e) ((senders e).sendAll_eq (fits_senders e)).1 ?_
    rw [sents_senders]
    split_ifs
    · decide +kernel
    · decide
  · simp [sents_senders]
  · exact ⟨by decide, by decide +kernel, by decide +kernel, by decide +kernel, by decide⟩
  · grind [sents_senders]

/-! ### Large network packets -/

namespace Large

/-- An Interest of `2 ^ 31` bytes: the type, the length in five bytes, and the value. -/
def bytes (value : List UInt8) : List UInt8 :=
  5 :: 254 :: 127 :: 255 :: 255 :: 250 :: value

variable {value : List UInt8} (hvalue : value.length = 2147483642)

include hvalue in
/-- The large packet is one element. -/
theorem readBlock_bytes : Tlv.readBlock (bytes value) = some (bytes value) := by
  have htype : Tlv.readType (bytes value) =
      some (5, 254 :: 127 :: 255 :: 255 :: 250 :: value) := rfl
  simp_all [Tlv.readVarNumber, BigEndian.ofBytes, Tlv.readBlock, bytes]

/-- The Interest as the link service has it, with no other field. -/
def interest : NetPacket where
  packet := ⟨[⟨Field.fragment, bytes value⟩]⟩
  netPkt := bytes value
  fragment_eq := rfl
  readBlock_eq := readBlock_bytes hvalue
  fragIndex_absent := rfl
  fragCount_absent := rfl
  typed := by
    intro e he
    rw [mem_singleton.mp he]
    show Field.fragment < 2 ^ 32
    decide

/-- The large packet has 2^31 octets. -/
theorem length_netPkt : (interest hvalue).netPkt.length = 2 ^ 31 := by
  simp [interest, bytes, hvalue]

/-- The large packet can be counted. -/
theorem fits : (interest hvalue).Fits := by
  have hsize : (interest hvalue).packet.elementsSize =
      (Tlv.Element.mk Field.fragment (interest hvalue).netPkt).size := by
    simp [Packet.elementsSize, interest]
  rw [NetPacket.Fits, hsize, Tlv.Element.size, length_netPkt]
  dsimp only
  decide

/-- It has room for its headers in a large MTU. -/
theorem hasRoom : (interest hvalue).HasRoom (2 ^ 30) := by
  have hheaders : ((interest hvalue).packet.clear Field.fragment).elementsSize = 0 := rfl
  rw [NetPacket.HasRoom, hheaders]
  decide

/-- It is cut into three payloads. -/
theorem length_payloads : ((interest hvalue).payloads (2 ^ 30)).length = 3 := by
  have hheaders : ((interest hvalue).packet.clear Field.fragment).elementsSize = 0 := rfl
  rw [NetPacket.length_payloads (hasRoom hvalue), NetPacket.firstPayloadSize, length_netPkt,
    hheaders]
  decide

/-- The message that carries the Interest. -/
def message : Sent :=
  ⟨interest hvalue, 0, (assignSequences 0 (((interest hvalue).payloads (2 ^ 30)).mapIdx
    (mkFragment (interest hvalue).packet ((interest hvalue).payloads (2 ^ 30)).length))).2⟩

/-- It is sent in three fragments. -/
theorem length_frags : (message hvalue).frags.length = 3 := by
  rw [message, length_assignSequences, length_mapIdx, length_payloads]

/-- The fragments are a series. -/
theorem isSeries_message :
    IsSeries (interest hvalue) (message hvalue).identifier (message hvalue).frags :=
  (interest hvalue).isSeries_assignSequences 0 (NetPacket.flatten_payloads (hasRoom hvalue))
    (fun _ => NetPacket.ne_nil_of_mem_payloads (hasRoom hvalue))
    (by rw [length_payloads]; decide)

/-- A sender that is given the Interest. -/
def sender : Sender :=
  ⟨⟨true, 400⟩, 0, [(interest hvalue, some (2 ^ 30))]⟩

/-- What is sent of the large packet. -/
theorem sents_sender : (sender hvalue).sents = [message hvalue] := by
  have hslow : 2 ^ 30 < maxSingleFragOverhead + (interest hvalue).packet.wireSize := by
    have hsize : (interest hvalue).packet.wireLength = (interest hvalue).netPkt.length := rfl
    rw [Packet.wireSize, hsize, length_netPkt]
    decide
  have hfragments : fragments ⟨true, 400⟩ (interest hvalue).packet (some (2 ^ 30)) = _ :=
    (interest hvalue).fragmentPacket_eq (fits hvalue) hslow (hasRoom hvalue)
      (by rw [length_payloads]; decide)
  have hsend := (interest hvalue).sendNetPacket_series (fits hvalue) 0 (hasRoom hvalue)
    (by rw [length_payloads]; decide) hfragments
  simp only [Sender.sents, sender, sendAll, hsend, bind, Except.bind, message]

/-- The third fragment makes the reassembly throw. -/
theorem deliveries_message (e : EndpointId) {f g h : Packet}
    (hfrags : (message hvalue).frags = [f, g, h]) :
    ∃ fault, deliveries ⟨400, 500⟩ (fun _ => none) e (message hvalue)
      [⟨0, e, f⟩, ⟨0, e, g⟩, ⟨0, e, h⟩] = [.thrown fault] := by
  have hseries := isSeries_message hvalue
  have hlength := length_frags hvalue
  have hlimit : (message hvalue).frags.length ≤
      (ReceiveOptions.mk 400 500).nMaxFragments.toNat := by
    rw [hlength]
    decide
  obtain ⟨s₁, hf, -, hold₁⟩ := hseries.receive_kept hlimit 0
    (by rw [hfrags]; rfl : (message hvalue).frags[0]? = some f)
    (holds_empty (e, (message hvalue).identifier) _) (by decide) (by rw [hlength]; decide)
  obtain ⟨s₂, hg, -, hold₂⟩ := hseries.receive_kept hlimit 0
    (by rw [hfrags]; rfl : (message hvalue).frags[1]? = some g) hold₁ (by decide)
    (by rw [hlength]; decide)
  obtain ⟨s₃, fault, hh⟩ := hseries.receive_large hlimit 0
    (by rw [hfrags]; rfl : (message hvalue).frags[2]? = some h) hold₂ (by rw [length_netPkt])
    (by decide) (by rw [hlength]; decide)
  refine ⟨fault, ?_⟩
  simp only [deliveries_cons, receive, hf, hg, hh]
  have hof : (Arrival.mk 0 e h).Of e (message hvalue) := ⟨rfl, by simp [hfrags]⟩
  simp [hof, deliveries, receiveAll]

end Large

open Large in
/-- A network packet of `2 ^ 31` bytes in three fragments, received in order, is not delivered. -/
theorem large_packet_not_delivered :
    ∃ (opts : ReceiveOptions) (sender : Sender) (e : EndpointId) (m : Sent)
      (before : List Arrival) (x : Arrival),
      1 ≤ opts.nMaxFragments ∧ sender.opts.nMaxFragments ≤ opts.nMaxFragments ∧
      sender.sents = [m] ∧ m.packet.netPkt.length = 2 ^ 31 ∧
      (∀ y ∈ before ++ [x], y.remoteEndpoint = e ∧ y.packet ∈ m.frags) ∧
      CompletesWith e m before x [] ∧
      ∀ netPkt first, .delivered netPkt first ∉
        deliveries opts (fun _ => none) e m (before ++ [x]) := by
  obtain ⟨value, hvalue⟩ : ∃ value : List UInt8, value.length = 2147483642 :=
    ⟨replicate 2147483642 0, length_replicate⟩
  obtain ⟨f, g, h, hfrags⟩ := length_eq_three.mp (length_frags hvalue)
  obtain ⟨fault, hthrown⟩ := deliveries_message hvalue 3 hfrags
  have hindex : ∀ {j k : ℕ} {p : Packet}, j < k → k < 3 →
      (message hvalue).frags[j]? = some p → (message hvalue).frags[k]? ≠ some p := by
    intro j k p hjk hk hj hk'
    have hseries := isSeries_message hvalue
    have heq := (hseries.fragIndex_eq j p hj).symm.trans (hseries.fragIndex_eq k p hk')
    grind [UInt64.toNat_ofNat']
  refine ⟨⟨400, 500⟩, sender hvalue, 3, message hvalue, [⟨0, 3, f⟩, ⟨0, 3, g⟩], ⟨0, 3, h⟩,
    by decide, UInt64.le_refl 400, sents_sender hvalue, length_netPkt hvalue, ?_, ?_, ?_⟩
  · simp [hfrags]
  · refine ⟨rfl, by simp [hfrags], ?_, ?_, by simp⟩
    · have hfh : f ≠ h := by
        rintro rfl
        exact hindex (show 0 < 2 by decide) (by decide) (by rw [hfrags]; rfl) (by rw [hfrags]; rfl)
      have hgh : g ≠ h := by
        rintro rfl
        exact hindex (show 1 < 2 by decide) (by decide) (by rw [hfrags]; rfl) (by rw [hfrags]; rfl)
      simp [hfh, hgh]
    · simp [hfrags, or_comm]
  · intro netPkt first
    simp only [cons_append, nil_append, hthrown]
    simp

/-! ### Packets that cannot be counted -/

namespace Uncounted

/-- An Interest of `2 ^ 32` bytes. -/
def bytes (value : List UInt8) : List UInt8 :=
  5 :: 254 :: 255 :: 255 :: 255 :: 250 :: value

variable {value : List UInt8} (hvalue : value.length = 4294967290)

include hvalue in
/-- The length of the packet. -/
theorem length_bytes : (bytes value).length = 4294967296 := by
  simp [bytes, hvalue]

/-- The Interest with one header. -/
def interest : NetPacket where
  packet := ⟨[⟨816, [9]⟩, ⟨Field.fragment, bytes value⟩]⟩
  netPkt := bytes value
  fragment_eq := rfl
  readBlock_eq := by
    have htype : Tlv.readType (bytes value) =
        some (5, 254 :: 255 :: 255 :: 255 :: 250 :: value) := rfl
    simp_all [Tlv.readVarNumber, BigEndian.ofBytes, Tlv.readBlock, bytes]
  fragIndex_absent := rfl
  fragCount_absent := rfl
  typed := by
    intro e he
    rcases mem_pair.mp he with rfl | rfl
    · decide
    · show Field.fragment < 2 ^ 32
      decide

/-- Of the Fragment its type and length are written. -/
theorem encodedElements_interest : (interest hvalue).packet.encodedElements =
    [253, 3, 48, 1, 9, 80, 255, 0, 0, 0, 1, 0, 0, 0, 0] := by
  have hlength := length_bytes hvalue
  have hfragment : Encoder.sizedWire (Tlv.encodeElement Field.fragment (bytes value)) =
      [80, 255, 0, 0, 0, 1, 0, 0, 0, 0] := by
    have hwire : Tlv.encodeElement Field.fragment (bytes value) =
        [80, 255, 0, 0, 0, 1, 0, 0, 0, 0] ++ bytes value := by
      rw [Tlv.encodeElement, hlength]
      rfl
    rw [Encoder.sizedWire, hwire, length_append, hlength]
    rfl
  have hheader : Encoder.sizedWire (Tlv.encodeElement 816 [9]) = [253, 3, 48, 1, 9] := by
    decide +kernel
  simp only [Packet.encodedElements, interest, flatMap_cons, flatMap_nil, hfragment, hheader]
  rfl

end Uncounted

open Uncounted in
/-- A network packet of `2 ^ 32` bytes with a header is taken for one that fits in an MTU of 1500,
and nothing can be read of it on the other side. -/
theorem uncounted_packet_lost : ∃ np : NetPacket, np.netPkt.length = 2 ^ 32 ∧
    fragmentPacket 400 np.packet 1500 = .ok (some [np.packet]) ∧
    ∀ lastSeqNo, sendNetPacket ⟨true, 400⟩ lastSeqNo np.packet (some 1500) =
      .ok (lastSeqNo, []) := by
  obtain ⟨value, hvalue⟩ : ∃ value : List UInt8, value.length = 4294967290 :=
    ⟨replicate 4294967290 0, length_replicate⟩
  have hlength : (interest hvalue).packet.wireLength = 17 := by
    have hsize : (interest hvalue).packet.wireLength = Tlv.sizeOfVarNumber Field.lpPacket +
        Tlv.sizeOfVarNumber (interest hvalue).packet.encodedElements.length +
        (interest hvalue).packet.encodedElements.length := rfl
    rw [hsize, encodedElements_interest]
    rfl
  have hencoded : (interest hvalue).packet.encoded = .error .tlvError := by
    refine Packet.encoded_eq_error (fun v heq => ?_) ?_
    · cases heq
    · rw [encodedElements_interest]
      decide +kernel
  have hwhole : fragmentPacket 400 (interest hvalue).packet 1500 =
      .ok (some [(interest hvalue).packet]) := by
    rw [fragmentPacket, Packet.wireSize, hlength]
    rfl
  refine ⟨interest hvalue, (length_bytes hvalue).trans (by norm_num), hwhole, fun lastSeqNo => ?_⟩
  have htransmit : transmit (some 1500) (interest hvalue).packet = none := by
    rw [transmit, hencoded]
    split_ifs <;> rfl
  have hfragments : fragments ⟨true, 400⟩ (interest hvalue).packet (some 1500) =
      .ok (some [(interest hvalue).packet]) := by
    simp only [fragments, if_true, hwhole]
  rw [sendNetPacket, hfragments]
  simp [Except.map, htransmit]

end IcnDemo.Lp
