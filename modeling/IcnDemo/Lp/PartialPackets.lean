import IcnDemo.Lp.Reassembler

/-!
# The partial packets over a run

Whatever fragments arrive and whichever drop timers fire, each partial packet that the reassembler
keeps counts its filled slots and has a timer that will drop it.
-/

namespace IcnDemo.Lp

open List

/-- A fragment is received, or the drop timer of a partial packet fires. -/
inductive Event where
  | receive (now : ℕ) (remoteEndpoint : EndpointId) (packet : Packet)
  | timeout (key : Key)

variable (opts : ReceiveOptions) (s : PartialPackets)

/-- The map after an event, also when the call ends with an exception. -/
def step : Event → PartialPackets
  | .receive now remoteEndpoint packet => (receiveFragment opts s now remoteEndpoint packet).1
  | .timeout key => timeoutPartialPacket s key

/-- The map after a run. -/
def run (events : List Event) : PartialPackets :=
  events.foldl (step opts) fun _ => none

/-- The slots of a partial packet and their counter agree. -/
structure Filling (pp : PartialPacket) : Prop where
  two_le : 2 ≤ pp.fragCount.toNat
  length_eq : pp.fragments.length = pp.fragCount.toNat
  received_eq : pp.nReceivedFragments = pp.fragments.countP (·.has Field.sequence)

/-- A partial packet as it is kept: its timer is pending, since a timer that fires removes it, and
it is full only if the reassembly threw. -/
structure Sound (pp : PartialPacket) : Prop extends Filling pp where
  timer : pp.dropTimer.isSome
  full : pp.nReceivedFragments = pp.fragCount.toNat →
    ∃ fault, doReassembly pp.fragments = .error fault

/-- A number cannot be read, FragIndex or FragCount is out of range, the Sequence is missing, or
FragCount is not that of the message. -/
def Refused (e : EndpointId) (packet : Packet) : Prop :=
  match packet.numberOr Field.fragIndex 0, packet.numberOr Field.fragCount 1 with
  | .ok i, .ok n => n ≤ i ∨ opts.nMaxFragments < n ∨
      ∀ sequence ∈ packet.getNumber Field.sequence,
        ∃ pp, s (e, sequence - i) = some pp ∧ pp.fragCount ≠ n
  | _, _ => True

/-- What a step leaves is sound, and what stays has its fragment count. -/
def Keeps (s' : PartialPackets) : Prop :=
  ∀ key pp, s' key = some pp → Sound pp ∧ ∀ old, s key = some old → pp.fragCount = old.fragCount

variable {key : Key} {i n : UInt64} {packet : Packet} {pp : PartialPacket}

/-- No more fragments are counted than there are slots. -/
theorem Filling.received_le (h : Filling pp) : pp.nReceivedFragments ≤ pp.fragCount.toNat := by
  rw [h.received_eq, ← h.length_eq]
  exact countP_le_length

/-- A fragment in a free slot is counted. -/
theorem Filling.set (h : Filling pp) {j : ℕ} {fragment : Packet}
    (hslot : pp.fragments[j]? = some fragment) (hfree : ¬ fragment.has Field.sequence = true)
    (hhas : packet.has Field.sequence = true) (timer : Option ℕ) :
    Filling ⟨pp.fragments.set j packet, pp.fragCount, pp.nReceivedFragments + 1, timer⟩ where
  two_le := h.two_le
  length_eq := length_set.trans h.length_eq
  received_eq := by
    obtain ⟨hj, rfl⟩ := List.getElem?_eq_some_iff.mp hslot
    rw [countP_set hj, if_neg hfree, if_pos hhas, h.received_eq, Nat.sub_zero]

/-- A fragment that is not dropped at once goes to the partial packet of its message. -/
theorem receiveFragment_cases (now : ℕ) (e : EndpointId) (packet : Packet) :
    (receiveFragment opts s now e packet).1 = s ∨
    ∃ i n sequence, packet.numberOr Field.fragIndex 0 = .ok i ∧
      packet.numberOr Field.fragCount 1 = .ok n ∧ packet.getNumber Field.sequence = some sequence ∧
      i < n ∧ n ≤ opts.nMaxFragments ∧ 2 ≤ n.toNat ∧ receiveFragment opts s now e packet =
        addToPartialPacket opts s now (e, sequence - i) i n packet := by
  unfold receiveFragment
  split
  case h_1 | h_2 => exact .inl rfl
  case h_3 i n hi hn =>
    split_ifs with hle hmax hfast
    · exact .inl rfl
    · exact .inl rfl
    · left
      split
      · rfl
      · split <;> rfl
    · exact .inl rfl
    · split
      case h_1 => exact .inl rfl
      case h_2 sequence hsequence =>
        refine .inr ⟨i, n, sequence, hi, hn, hsequence, UInt64.not_le.mp hle,
          UInt64.not_lt.mp hmax, ?_, rfl⟩
        simp only [UInt64.le_iff_toNat_le, ← UInt64.toNat_inj, UInt64.toNat_zero,
          UInt64.toNat_one] at hle hfast
        omega

section

variable {s} (hs : ∀ key pp, s key = some pp → Sound pp)

include hs

/-- The partial packet of the key, if there is one. -/
theorem findPartialPacket_of_some (hpp : s key = some pp) : findPartialPacket s key n = pp := by
  have hcount : pp.fragCount ≠ 0 := by
    intro hzero
    have htwo := (hs key pp hpp).two_le
    rw [hzero, UInt64.toNat_zero] at htwo
    omega
  simp [findPartialPacket, hpp, hcount]

/-- The partial packet is filling, with a timer unless it is new. -/
theorem filling_findPartialPacket (key : Key) (htwo : 2 ≤ n.toNat) :
    Filling (findPartialPacket s key n) ∧ ((findPartialPacket s key n).dropTimer.isSome ∨
      (findPartialPacket s key n).nReceivedFragments = 0) := by
  rcases hpp : s key with - | pp
  · have hempty : Packet.empty.has Field.sequence = false := rfl
    simp only [findPartialPacket, hpp, Option.getD_none]
    exact ⟨⟨htwo, by simp, by simp [countP_replicate, hempty]⟩, .inr rfl⟩
  · rw [findPartialPacket_of_some hs hpp]
    exact ⟨(hs key pp hpp).toFilling, .inl (hs key pp hpp).timer⟩

theorem keeps_self : Keeps s s :=
  fun key pp hpp => ⟨hs key pp hpp, fun _ hold => by rw [Option.some.inj (hpp.symm.trans hold)]⟩

/-- One partial packet changes. -/
theorem keeps_update (n : UInt64) {entry : Option PartialPacket} (hentry : ∀ pp ∈ entry, Sound pp ∧
    pp.fragCount = (findPartialPacket s key n).fragCount) :
    Keeps s (Function.update s key entry) := by
  intro k pp hpp
  by_cases hkey : k = key
  · subst hkey
    rw [Function.update_self] at hpp
    refine ⟨(hentry pp hpp).1, fun old hold => ?_⟩
    rw [(hentry pp hpp).2, findPartialPacket_of_some hs hold]
  · rw [Function.update_of_ne hkey] at hpp
    exact keeps_self hs k pp hpp

/-- A fragment keeps all partial packets sound. -/
theorem keeps_addToPartialPacket (now : ℕ) (key : Key) (htwo : 2 ≤ n.toNat)
    (hhas : packet.has Field.sequence = true) :
    Keeps s (addToPartialPacket opts s now key i n packet).1 := by
  obtain ⟨hpp, htimer⟩ := filling_findPartialPacket hs key htwo
  have hupdate := @keeps_update s key hs n
  unfold addToPartialPacket
  dsimp only
  generalize findPartialPacket s key n = pp at hpp htimer hupdate
  split
  · exact keeps_self hs
  split
  case h_1 => exact keeps_self hs
  case h_2 fragment hslot =>
    split
    case isTrue => exact keeps_self hs
    case isFalse hfree =>
      have hset := hpp.set hslot hfree hhas
      split_ifs with hfull
      · split
        case h_1 fault hfault =>
          -- the packet was not new, since it takes two fragments, so it has a timer
          have htwo' := hpp.two_le
          apply hupdate
          rintro _ ⟨⟩
          exact ⟨⟨hset _, htimer.resolve_right (by omega), fun _ => ⟨fault, hfault⟩⟩, rfl⟩
        case h_2 => exact hupdate nofun
      · apply hupdate
        rintro _ ⟨⟩
        exact ⟨⟨hset _, rfl, fun heq => absurd heq hfull⟩, rfl⟩

/-- One event keeps the partial packets sound. -/
theorem keeps_step (event : Event) : Keeps s (step opts s event) := by
  rcases event with ⟨now, e, packet⟩ | key
  · rw [step]
    rcases receiveFragment_cases opts s now e packet with
      hleft | ⟨i, n, sequence, -, -, hsequence, -, -, htwo, heq⟩
    · rw [hleft]
      exact keeps_self hs
    · rw [heq]
      exact keeps_addToPartialPacket opts hs now _ htwo (Packet.has_of_getNumber hsequence)
  · exact keeps_update hs 0 nofun

/-- A refused fragment changes nothing. -/
theorem receiveFragment_refused (now : ℕ) {e : EndpointId} (hrefused : Refused opts s e packet) :
    (receiveFragment opts s now e packet).1 = s := by
  rcases receiveFragment_cases opts s now e packet with
    hleft | ⟨i, n, sequence, hi, hn, hsequence, hlt, hmax, -, heq⟩
  · exact hleft
  rw [Refused, hi, hn] at hrefused
  obtain ⟨pp, hpp, hne⟩ := (hrefused.resolve_left (UInt64.not_le.mpr hlt)).resolve_left
    (UInt64.not_lt.mpr hmax) sequence hsequence
  rw [heq, addToPartialPacket]
  simp [findPartialPacket_of_some hs hpp, Ne.symm hne]

end

/-- All partial packets are sound in every run. -/
theorem sound_run (events : List Event) :
    ∀ key pp, run opts events key = some pp → Sound pp := by
  induction events using reverseRecOn with
  | nil => nofun
  | append_singleton events event ih =>
    intro key pp hpp
    rw [run, foldl_append] at hpp
    exact (keeps_step opts ih event key pp hpp).1

/-- After every run the partial packets are sound, an event keeps the fragment count of those that
stay, the slot of a fragment is there, and a refused fragment changes nothing. -/
theorem partialPackets_sound (events : List Event) :
    (∀ key pp, run opts events key = some pp →
      Sound pp ∧ pp.nReceivedFragments ≤ pp.fragCount.toNat ∧
        ∀ event pp', step opts (run opts events) event key = some pp' →
          pp'.fragCount = pp.fragCount) ∧
    (∀ key (i n : UInt64), i < n → 2 ≤ n.toNat →
      n = (findPartialPacket (run opts events) key n).fragCount →
        i.toNat < (findPartialPacket (run opts events) key n).fragments.length) ∧
    ∀ now e packet, Refused opts (run opts events) e packet →
      (receiveFragment opts (run opts events) now e packet).1 = run opts events := by
  have hs := sound_run opts events
  refine ⟨fun key pp hpp => ⟨hs key pp hpp, (hs key pp hpp).received_le, fun event pp' hpp' =>
    (keeps_step opts hs event key pp' hpp').2 pp hpp⟩, fun key i n hlt htwo hcount => ?_,
    fun now e packet => receiveFragment_refused opts hs now⟩
  rw [(filling_findPartialPacket hs key htwo).1.length_eq, ← hcount]
  exact UInt64.lt_iff_toNat_lt.mp hlt

/-- One of two fragments, with an empty Fragment. -/
def emptyFragment (index : UInt8) : Packet :=
  ⟨[⟨Field.sequence, [index]⟩, ⟨Field.fragIndex, [index]⟩, ⟨Field.fragCount, [2]⟩,
    ⟨Field.fragment, []⟩]⟩

/-- Two fragments with an empty Fragment stay, although there are no bytes to decode. -/
theorem empty_fragments_stay : ∃ pp,
    run ⟨400, 500⟩ [.receive 0 0 (emptyFragment 0), .receive 1 0 (emptyFragment 1)] (0, 0) =
        some pp ∧ pp.nReceivedFragments = pp.fragCount.toNat ∧
      pp.fragments.mapM Packet.getFragment = .error .tlvError :=
  ⟨_, rfl, rfl, rfl⟩

/-! ### Endpoints -/

/-- The endpoint whose partial packets an event is about. -/
def Event.endpoint : Event → EndpointId
  | .receive _ e _ => e
  | .timeout key => key.1

variable (now : ℕ) (e : EndpointId) (packet) (events : List Event)

/-- A call reads and writes one partial packet, of its endpoint. -/
theorem receive_local : ∃ n, ∀ s, receiveFragment opts s now e packet =
    let r := receiveFragment opts (fun _ => s (e, n)) now e packet
    (Function.update s (e, n) (r.1 (e, n)), r.2) := by
  unfold receiveFragment
  split
  case h_1 | h_2 => exact ⟨0, by simp⟩
  case h_3 i n hi hn =>
    refine ⟨(packet.getNumber Field.sequence).getD 0 - i, fun s => ?_⟩
    have hfind : ∀ k, findPartialPacket (fun _ => s k) k n = findPartialPacket s k n := fun _ => rfl
    -- every way out keeps the map or updates it at this key
    rcases packet.getNumber Field.sequence with _ | q
    all_goals
      simp only [addToPartialPacket, Option.getD_some, hfind]
      repeat' split
      all_goals simp

/-- An event reads and writes one partial packet, of its endpoint. -/
theorem step_local (event : Event) : ∃ k : Key, k.1 = event.endpoint ∧
    ∀ s, step opts s event = Function.update s k (step opts (fun _ => s k) event k) := by
  rcases event with ⟨now, e, packet⟩ | key
  · obtain ⟨n, hn⟩ := receive_local opts packet now e
    exact ⟨(e, n), rfl, fun s => congrArg Prod.fst (hn s)⟩
  · exact ⟨key, rfl, by simp [step, timeoutPartialPacket]⟩

/-- The partial packets of an endpoint depend on its own events. -/
theorem run_filter (n : UInt64) :
    run opts events (e, n) = run opts (events.filter (·.endpoint = e)) (e, n) := by
  induction events using reverseRecOn generalizing n with
  | nil => rfl
  | append_singleton events event ih =>
    obtain ⟨⟨_, m⟩, rfl, hm⟩ := step_local opts event
    simp only [run, filter_append, foldl_append, foldl_cons, foldl_nil] at ih ⊢
    by_cases he : event.endpoint = e
    · rw [filter_cons_of_pos (by simpa using he), foldl_cons, hm, hm (foldl _ _ (filter ..)), he,
        ih]
      by_cases hn : n = m <;> simp [hn, ih]
    · rw [filter_cons_of_neg (by simpa using he), hm,
        Function.update_of_ne fun h => he (congrArg Prod.fst h).symm]
      exact ih n

/-- What becomes of a fragment depends on the earlier events of its endpoint only. -/
theorem outcome_filter : (receiveFragment opts (run opts events) now e packet).2 =
      (receiveFragment opts (run opts (events.filter (·.endpoint = e))) now e packet).2 := by
  obtain ⟨n, hn⟩ := receive_local opts packet now e
  rw [hn, hn (run opts (events.filter _)), run_filter]

end IcnDemo.Lp
