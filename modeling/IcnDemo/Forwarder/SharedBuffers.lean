import IcnDemo.Forwarder.Hooks

/-!
# Interests that share their buffers

A copy of an Interest shares the buffers of the original, and `Interest::setNonce` writes a nonce of
four octets in place when the Interest has its wire.  A strategy that wants a new nonce gets a copy
of the Interest in an in-record, with the nonce set after the copy was made.

The memory beside the pipelines holds the buffers of the nonces: each Interest is decoded into a
buffer of its own, the Interest of an in-record is read through its buffer, and an Interest that has
lost its wire gets a new buffer when it is sent.  An Interest loses its wire when a delegation is
selected for it, which may happen to any Interest here.
-/

namespace IcnDemo.Forwarder

open List Option Pit.InRecord

variable {σ : Type}

/-! ### Buffers -/

/-- The buffer with the nonce of an Interest, and whether the Interest has its wire. -/
structure NonceRef where
  buffer : ℕ
  hasWire : Bool
deriving DecidableEq

/-- A look at the records of all PIT entries, at the nonces received last from each face, and at the
Nacks that are being sent. -/
structure NonceMoment where
  records : Pit.EntryId → Option Pit.Records
  received : Pit.EntryId → FaceRef → List UInt8
  nacks : List (Pit.EntryId × FaceRef × Interest)

/-- The buffers, the references of the in-records to them, the nonces received last, the octets
before and after each write, and all looks. -/
structure Buffers where
  octets : ℕ → List UInt8
  next : ℕ
  refs : Pit.EntryId → FaceRef → NonceRef
  received : Pit.EntryId → FaceRef → List UInt8
  overwrites : List (List UInt8 × List UInt8)
  moments : List NonceMoment

namespace Buffers

/-- No buffer at all. -/
def create : Buffers :=
  ⟨fun _ => [], 0, fun _ _ => ⟨0, false⟩, fun _ _ => [], [], []⟩

variable (m : Buffers)

/-- The Interest of an in-record gets a new buffer. -/
def alloc (p : Pit.EntryId) (face : FaceRef) (octets : List UInt8) (hasWire : Bool) : Buffers :=
  { m with
    octets := Function.update m.octets m.next octets
    next := m.next + 1
    refs := fun q g => if q = p ∧ g = face then ⟨m.next, hasWire⟩ else m.refs q g }

/-- A buffer is written. -/
def write (buffer : ℕ) (octets : List UInt8) : Buffers :=
  { m with
    octets := Function.update m.octets buffer octets
    overwrites := (m.octets buffer, octets) :: m.overwrites }

/-- Look. -/
def look (records : Pit.EntryId → Option Pit.Records)
    (nacks : List (Pit.EntryId × FaceRef × Interest)) : Buffers :=
  { m with moments := ⟨records, m.received, nacks⟩ :: m.moments }

/-- An in-record with the nonce that is in the buffer of its Interest. -/
def readRecord (p : Pit.EntryId) (r : Pit.InRecord) : Pit.InRecord :=
  { r with interest := { r.interest with nonce := m.octets (m.refs p r.face).buffer } }

/-- The state with the nonces that are in the buffers. -/
def read (s : Forwarder σ) : Forwarder σ :=
  { s with pit := { s.pit with
      entries := fun p => (s.pit.entries p).map fun P =>
        { P with inRecords := P.inRecords.map (m.readRecord p) } } }

end Buffers

/-! ### The actions -/

variable (env : Env σ) (selects : ℕ → Bool) (s : Forwarder σ) (m : Buffers)

/-- The in-record whose Interest `onOutgoingInterest` sends, if it gets that far. -/
def picked (p : Pit.EntryId) (outFace : FaceRef) : Option Pit.InRecord :=
  (s.pit.entries p).bind fun P =>
    if s.faceIds outFace = 0 then none
    else if violatesScope env P outFace then none
    else pickInRecord outFace P.inRecords

/-- `setNonce` on the copy of the picked Interest: it is written in place if the Interest has its
wire and the nonce has four octets, and otherwise the copy gets a nonce of its own. -/
def setNonceOfCopy : Action → Buffers
  | .sendInterest p outFace (some nonce) =>
      match picked env s p outFace with
      | none => m
      | some r =>
          if (m.refs p r.face).hasWire = true ∧ r.interest.nonce.length = 4 then
            m.write (m.refs p r.face).buffer (r.interest.setNonce nonce).nonce
          else m
  | _ => m

/-- `wireEncode` of the picked Interest itself: without a wire it is encoded into a new buffer and
decoded from there. -/
def encodePicked (signal : Signal) : Action → Buffers
  | .sendInterest p outFace none =>
      match picked env s p outFace with
      | none => m
      | some r =>
          if signal = .ok ∧ (m.refs p r.face).hasWire = false then
            m.alloc p r.face (m.octets (m.refs p r.face).buffer) true
          else m
  | _ => m

/-- The Nacks that an action sends. -/
def nacksBy (s' : Forwarder σ) : Action → List (Pit.EntryId × FaceRef × Interest)
  | .sendNack p _ _ => (s'.log.drop s.log.length).filterMap fun
      | .sendNack g i _ => some (p, g, i)
      | _ => none
  | _ => []

/-- The pipelines with buffers. -/
def bufferHooks : Hooks σ Buffers where
  act now s m a :=
    let m := setNonceOfCopy env s m a
    let r := act env now (m.read s) a
    let m := encodePicked env s m r.signal a
    ⟨r.state, m.look r.state.records (nacksBy s r.state a), r.signal⟩
  received s p inFace i m :=
    { m.alloc p inFace i.nonce (!selects m.next) with
      received := fun q g => if q = p ∧ g = inFace then i.nonce else m.received q g }.look
        s.records []
  nacked _ s _ _ _ m := m.look s.records []

/-! ### What should hold -/

/-- The in-records hold the nonces received last. -/
def Carries (R : Pit.EntryId → Option Pit.Records) (received : Pit.EntryId → FaceRef → List UInt8) :
    Prop :=
  ∀ p rs, R p = some rs → ∀ r ∈ rs.inRecords, r.interest.nonce = received p r.face

/-- The in-records hold, and the Nacks carry, the nonces received last. -/
def NonceMoment.Ok (mo : NonceMoment) : Prop :=
  Carries mo.records mo.received ∧ ∀ n ∈ mo.nacks, n.2.2.nonce = mo.received n.1 n.2.1

/-- Each nonce written in place is the nonce that is there. -/
def Buffers.NoneOverwritten : Prop :=
  ∀ o ∈ m.overwrites, o.1 = o.2

/-- The Interests of the in-records are read through their buffers. -/
structure Backed (R : Pit.EntryId → Option Pit.Records) (m : Buffers) : Prop where
  distinct (p : Pit.EntryId) (rs : Pit.Records) (h : R p = some rs) :
    (rs.inRecords.map Pit.InRecord.face).Nodup
  nonce_eq (p : Pit.EntryId) (rs : Pit.Records) (h : R p = some rs) :
    ∀ r ∈ rs.inRecords, r.interest.nonce = m.octets (m.refs p r.face).buffer
  buffer_lt (p : Pit.EntryId) (rs : Pit.Records) (h : R p = some rs) :
    ∀ r ∈ rs.inRecords, (m.refs p r.face).buffer < m.next

/-- What holds of the records and the buffers at all times. -/
structure NonceInv (R : Pit.EntryId → Option Pit.Records) (m : Buffers) : Prop where
  backed : Backed R m
  carries : m.NoneOverwritten → Carries R m.received
  ok_iff : (∀ mo ∈ m.moments, mo.Ok) ↔ m.NoneOverwritten

section Records

variable {R R' : Pit.EntryId → Option Pit.Records} {m m' : Buffers}

/-- The records stay backed if none is added. -/
theorem Backed.shrinks (h : Backed R m) (hshrinks : Shrinks Pit.Records.inRecords R R') :
    Backed R' m where
  distinct p rs' hrs' := by
    rcases hshrinks p rs' hrs' with hnil | ⟨rs, hrs, hsub⟩
    · simp [hnil]
    · exact (h.distinct p rs hrs).sublist (hsub.map _)
  nonce_eq p rs' hrs' r hr := by
    rcases hshrinks p rs' hrs' with hnil | ⟨rs, hrs, hsub⟩
    · simp [hnil] at hr
    · exact h.nonce_eq p rs hrs r (hsub.subset hr)
  buffer_lt p rs' hrs' r hr := by
    rcases hshrinks p rs' hrs' with hnil | ⟨rs, hrs, hsub⟩
    · simp [hnil] at hr
    · exact h.buffer_lt p rs hrs r (hsub.subset hr)

/-- The nonces stay if no record is added. -/
theorem Carries.shrinks {received : Pit.EntryId → FaceRef → List UInt8} (h : Carries R received)
    (hshrinks : Shrinks Pit.Records.inRecords R R') : Carries R' received := by
  intro p rs' hrs' r hr
  rcases hshrinks p rs' hrs' with hnil | ⟨rs, hrs, hsub⟩
  · simp [hnil] at hr
  · exact h p rs hrs r (hsub.subset hr)

/-- A new buffer for the Interest of one record. -/
theorem Backed.alloc {p : Pit.EntryId} {face : FaceRef} {octets : List UInt8} {hasWire : Bool}
    (hdistinct : ∀ q rs, R q = some rs → (rs.inRecords.map Pit.InRecord.face).Nodup)
    (hself : ∀ rs, R p = some rs → ∀ r ∈ rs.inRecords, r.face = face → r.interest.nonce = octets)
    (hother : ∀ q rs, R q = some rs → ∀ r ∈ rs.inRecords, ¬ (q = p ∧ r.face = face) →
      r.interest.nonce = m.octets (m.refs q r.face).buffer ∧ (m.refs q r.face).buffer < m.next) :
    Backed R (m.alloc p face octets hasWire) where
  distinct := hdistinct
  nonce_eq q rs hrs r hr := by
    by_cases hkey : q = p ∧ r.face = face
    · simp_all [Buffers.alloc]
    · obtain ⟨heq, hlt⟩ := hother q rs hrs r hr hkey
      simp only [Buffers.alloc, hkey, if_false, Function.update_of_ne (ne_of_lt hlt)]
      exact heq
  buffer_lt q rs hrs r hr := by grind [Buffers.alloc]

/-- A look keeps the invariant. -/
theorem NonceInv.look (h : NonceInv R m) (os : List (List UInt8 × List UInt8))
    {nacks : List (Pit.EntryId × FaceRef × Interest)} (hbacked : Backed R' m')
    (hoverwrites : m'.overwrites = os ++ m.overwrites) (hmoments : m'.moments = m.moments)
    (hok : Carries R m.received →
      ((NonceMoment.mk R' m'.received nacks).Ok ↔ ∀ o ∈ os, o.1 = o.2)) :
    NonceInv R' (m'.look R' nacks) := by
  have hnone : (m'.look R' nacks).NoneOverwritten ↔ (∀ o ∈ os, o.1 = o.2) ∧ m.NoneOverwritten := by
    simp only [Buffers.NoneOverwritten, Buffers.look, hoverwrites, forall_mem_append]
  refine ⟨⟨hbacked.distinct, hbacked.nonce_eq, hbacked.buffer_lt⟩, fun hall => ?_, ?_⟩
  · obtain ⟨hos, hold⟩ := hnone.mp hall
    exact ((hok (h.carries hold)).mpr hos).1
  · grind [Buffers.look, h.ok_iff, h.carries]

/-- A change that adds no record keeps the invariant. -/
theorem NonceInv.shrinks (h : NonceInv R m) (hshrinks : Shrinks Pit.Records.inRecords R R') :
    NonceInv R' m :=
  ⟨h.backed.shrinks hshrinks, fun hnone => (h.carries hnone).shrinks hshrinks, h.ok_iff⟩

end Records

/-! ### Reading the buffers -/

section Read

variable {s : Forwarder σ} {m : Buffers}

/-- The records with the nonces of the buffers. -/
theorem records_read (s : Forwarder σ) (m : Buffers) (p : Pit.EntryId) :
    (m.read s).records p = (s.records p).map fun rs =>
      { rs with inRecords := rs.inRecords.map (m.readRecord p) } := by
  simp only [records, Buffers.read, Option.map_map]
  rfl

/-- Backed records are read as they are. -/
theorem records_read_eq (h : Backed s.records m) : (m.read s).records = s.records := by
  funext p
  rw [records_read]
  rcases hrs : s.records p with _ | rs
  · rfl
  have hmap : rs.inRecords.map (m.readRecord p) = rs.inRecords := by
    refine (map_congr_left fun r hr => ?_).trans (map_id _)
    rw [Buffers.readRecord, ← h.nonce_eq p rs hrs r hr]
    rfl
  rw [map_some, hmap]

/-- What is read from the buffers is backed by them. -/
theorem backed_read (h : Backed s.records m) {m' : Buffers} (hrefs : m'.refs = m.refs)
    (hnext : m'.next = m.next) : Backed (m'.read s).records m' where
  distinct p rs' hrs' := by
    rw [records_read] at hrs'
    obtain ⟨rs, hrs, rfl⟩ := map_eq_some_iff.mp hrs'
    dsimp only
    rw [List.map_map]
    exact h.distinct p rs hrs
  nonce_eq p rs' hrs' r' hr' := by
    rw [records_read] at hrs'
    obtain ⟨rs, hrs, rfl⟩ := map_eq_some_iff.mp hrs'
    obtain ⟨r, hr, rfl⟩ := mem_map.mp hr'
    rfl
  buffer_lt p rs' hrs' r' hr' := by
    rw [records_read] at hrs'
    obtain ⟨rs, hrs, rfl⟩ := map_eq_some_iff.mp hrs'
    obtain ⟨r, hr, rfl⟩ := mem_map.mp hr'
    rw [hrefs, hnext]
    exact h.buffer_lt p rs hrs r hr

/-- The picked record is one of the entry. -/
theorem mem_of_picked {env : Env σ} {p : Pit.EntryId} {outFace : FaceRef} {r : Pit.InRecord}
    (h : picked env s p outFace = some r) : ∃ rs, s.records p = some rs ∧ r ∈ rs.inRecords := by
  obtain ⟨P, hP, hpick⟩ := bind_eq_some_iff.mp h
  simp only [ite_none_left_eq_some] at hpick
  exact ⟨P.records, by rw [records, hP]; rfl, mem_of_pickInRecord hpick.2.2⟩

/-- What `setNonce` on the copy does to the buffers: nothing, or a write to the buffer of an
in-record. -/
theorem setNonceOfCopy_cases (env : Env σ) (s : Forwarder σ) (m : Buffers) (a : Action) :
    setNonceOfCopy env s m a = m ∨
      ∃ p outFace nonce rs r octets, a = .sendInterest p outFace (some nonce) ∧
        s.records p = some rs ∧ r ∈ rs.inRecords ∧
        setNonceOfCopy env s m a = m.write (m.refs p r.face).buffer octets := by
  rcases a with ⟨p, outFace, _ | nonce⟩ | p | ⟨p, outFace, reason⟩
  · exact .inl rfl
  · grind [setNonceOfCopy, mem_of_picked]
  · exact .inl rfl
  · exact .inl rfl

/-- A write leaves the nonces exactly if it writes what is there. -/
theorem carries_write_iff (h : Backed s.records m) (hcarries : Carries s.records m.received)
    {p : Pit.EntryId} {rs : Pit.Records} {r : Pit.InRecord} (hrs : s.records p = some rs)
    (hr : r ∈ rs.inRecords) (octets : List UInt8) :
    Carries ((m.write (m.refs p r.face).buffer octets).read s).records m.received ↔
      m.octets (m.refs p r.face).buffer = octets := by
  constructor
  · intro hnew
    have hread := hnew p _ (by rw [records_read, hrs]; rfl) _ (mem_map_of_mem hr)
    have hwritten : octets = m.received p r.face := by
      simpa [Buffers.readRecord, Buffers.write] using hread
    rw [hwritten, ← hcarries p rs hrs r hr]
    exact (h.nonce_eq p rs hrs r hr).symm
  intro heq
  have hsame : ((m.write (m.refs p r.face).buffer octets).read s).records = (m.read s).records := by
    have hoctets : Function.update m.octets (m.refs p r.face).buffer octets = m.octets := by
      rw [← heq, Function.update_eq_self]
    funext q
    rw [records_read, records_read]
    unfold Buffers.readRecord Buffers.write
    dsimp only
    rw [hoctets]
  rw [hsame, records_read_eq h]
  exact hcarries

/-- Encoding an Interest keeps the records backed. -/
theorem backed_encodePicked {env : Env σ} {s : Forwarder σ} {R : Pit.EntryId → Option Pit.Records}
    (h : Backed R m) (signal : Signal) (a : Action) : Backed R (encodePicked env s m signal a) := by
  unfold encodePicked
  split
  · split
    · exact h
    · split
      · grind [Backed.alloc, h.distinct, h.nonce_eq, h.buffer_lt]
      · exact h
  · exact h

/-- Encoding an Interest writes over no buffer. -/
theorem encodePicked_frame (env : Env σ) (s : Forwarder σ) (m : Buffers) (signal : Signal)
    (a : Action) :
    (encodePicked env s m signal a).received = m.received ∧
      (encodePicked env s m signal a).overwrites = m.overwrites ∧
      (encodePicked env s m signal a).moments = m.moments := by
  unfold encodePicked
  split
  · split
    · exact ⟨rfl, rfl, rfl⟩
    · split
      · exact ⟨rfl, rfl, rfl⟩
      · exact ⟨rfl, rfl, rfl⟩
  · exact ⟨rfl, rfl, rfl⟩

end Read

/-! ### The actions keep the invariant -/

section Act

variable {env : Env σ} {now : ℤ} {s : Forwarder σ} {m : Buffers}

/-- Sending an Interest leaves the in-records. -/
theorem inRecords_sendInterest (env : Env σ) (now : ℤ) (s : Forwarder σ) (p q : Pit.EntryId)
    (outFace : FaceRef) (newNonce : Option UInt32) :
    ((act env now s (.sendInterest p outFace newNonce)).state.records q).map
        Pit.Records.inRecords = (s.records q).map Pit.Records.inRecords := by
  rcases onOutgoingInterest_cases env s p outFace newNonce now with
    heq | ⟨P, r, i, nonce, hP, -, -, -, -, heq⟩
  · simp only [act, heq]
  simp only [act, heq]
  by_cases hq : q = p
  · subst hq
    change ((s.modifyEntry q _).records q).map _ = _
    rw [records_modifyEntry_self hP, records, hP]
    unfold Pit.Entry.insertOrUpdateOutRecord
    dsimp only
    split
    · rfl
    · rfl
  · change ((s.modifyEntry p _).records q).map _ = _
    rw [records_modifyEntry_of_ne s _ hq]

/-- An action adds no in-record. -/
theorem shrinks_act (env : Env σ) (now : ℤ) (s : Forwarder σ) (a : Action) :
    Shrinks Pit.Records.inRecords s.records (act env now s a).state.records := by
  rcases a with ⟨p, outFace, newNonce⟩ | p | ⟨p, outFace, reason⟩
  · intro q rs' hrs'
    grind [inRecords_sendInterest, map_eq_some_iff]
  · simp only [act]
    rcases onInterestReject_cases s p now with heq | ⟨P, -, -, heq⟩
    · rw [heq]
      exact Shrinks.refl _ _
    · rw [heq, records_congr (core_setStragglerTimer p false _)]
      exact Shrinks.refl _ _
  · simp only [act]
    rcases onOutgoingNack_cases env s p outFace reason with heq | ⟨P, r, -, -, -, heq⟩
    · rw [heq]
      exact Shrinks.refl _ _
    · rw [heq]
      exact shrinks_modifyEntry Pit.Records.inRecords p fun P => eraseP_sublist

/-- A Nack carries the nonce of its in-record. -/
theorem nacksBy_ok {received : Pit.EntryId → FaceRef → List UInt8}
    (hcarries : Carries s.records received) (a : Action) :
    ∀ n ∈ nacksBy s (act env now s a).state a, n.2.2.nonce = received n.1 n.2.1 := by
  rcases a with ⟨p, outFace, newNonce⟩ | p | ⟨p, outFace, reason⟩
  · intro n hn
    cases hn
  · intro n hn
    cases hn
  · intro n hn
    simp only [act, nacksBy] at hn
    rcases onOutgoingNack_cases env s p outFace reason with heq | ⟨P, r, hP, hr, hface, heq⟩
    · simp [heq] at hn
    · have hsingle : n = (p, outFace, r.interest) := by simpa [heq] using hn
      rw [hsingle, ← hface]
      exact hcarries p P.records (by rw [records, hP]; rfl) r hr

/-- Sending an Interest leaves the nonces. -/
theorem carries_sendInterest_iff {received : Pit.EntryId → FaceRef → List UInt8} {p : Pit.EntryId}
    {outFace : FaceRef} {newNonce : Option UInt32} :
    Carries (act env now s (.sendInterest p outFace newNonce)).state.records received ↔
      Carries s.records received := by
  constructor
  · intro h q rs hrs r hr
    have hsame := inRecords_sendInterest env now s p q outFace newNonce
    rw [hrs, map_some] at hsame
    obtain ⟨rs', hrs', heq⟩ := map_eq_some_iff.mp hsame
    exact h q rs' hrs' r (by rw [heq]; exact hr)
  · exact fun h => h.shrinks (shrinks_act env now s _)

/-- An action keeps the invariant. -/
theorem NonceInv.act (h : NonceInv s.records m) (selects : ℕ → Bool) (a : Action) :
    NonceInv ((bufferHooks env selects).act now s m a).state.records
      ((bufferHooks env selects).act now s m a).memory := by
  change NonceInv (Forwarder.act env now ((setNonceOfCopy env s m a).read s) a).state.records
    ((encodePicked env s (setNonceOfCopy env s m a)
      (Forwarder.act env now ((setNonceOfCopy env s m a).read s) a).signal a).look _ _)
  obtain ⟨hreceived, hoverwrites, hmoments⟩ := encodePicked_frame env s (setNonceOfCopy env s m a)
    (Forwarder.act env now ((setNonceOfCopy env s m a).read s) a).signal a
  rcases setNonceOfCopy_cases env s m a with
    heq | ⟨p, outFace, nonce, rs, r, octets, rfl, hrs, hr, heq⟩
  · -- nothing is written
    rw [heq] at hreceived hoverwrites hmoments ⊢
    have hread := records_read_eq h.backed
    have hshrinks := shrinks_act env now (m.read s) a
    rw [hread] at hshrinks
    refine h.look [] (backed_encodePicked (h.backed.shrinks hshrinks) _ a) hoverwrites hmoments ?_
    intro hcarries
    refine iff_of_true ⟨?_, ?_⟩ (by simp)
    · rw [hreceived]
      exact hcarries.shrinks hshrinks
    · rw [hreceived]
      exact nacksBy_ok (s := m.read s) (by rw [hread]; exact hcarries) a
  · rw [heq] at hreceived hoverwrites hmoments ⊢
    have hbacked : Backed ((m.write (m.refs p r.face).buffer octets).read s).records
        (m.write (m.refs p r.face).buffer octets) := backed_read h.backed rfl rfl
    refine h.look [(m.octets (m.refs p r.face).buffer, octets)]
      (backed_encodePicked (hbacked.shrinks (shrinks_act env now _ _)) _ _) hoverwrites hmoments ?_
    intro hcarries
    rw [forall_mem_singleton, ← carries_write_iff h.backed hcarries hrs hr octets]
    simp only [NonceMoment.Ok, hreceived, nacksBy, not_mem_nil, false_implies, implies_true,
      and_true]
    exact carries_sendInterest_iff

end Act

/-! ### Incoming Interests -/

section Received

variable {s : Forwarder σ} {m : Buffers} {p : Pit.EntryId} {P : Pit.Entry} {inFace : FaceRef}
  {i : Interest} {nonce : UInt32} {now : ℤ}

/-- The in-records after an Interest was received. -/
theorem mem_insertOrUpdateInRecord_iff {r' : Pit.InRecord}
    (hnodup : (P.inRecords.map face).Nodup) :
    r' ∈ (P.insertOrUpdateInRecord inFace i nonce now).inRecords ↔
      r' = ⟨inFace, nonce, now, Pit.expiryOf now i.lifetime, i⟩ ∨
        r' ∈ P.inRecords ∧ r'.face ≠ inFace := by
  unfold Pit.Entry.insertOrUpdateInRecord
  rcases hk : P.inRecords.findIdx? (fun r => r.face == inFace) with _ | k
  · grind
  obtain ⟨r, hr⟩ := Keyed.exists_find?_of_findIdx? hk
  simp only [hk]
  rw [set_eq_modify, Keyed.mem_modify_findIdx? face _ hnodup hr hk]

/-- The faces of in-records stay distinct. -/
theorem nodup_insertOrUpdateInRecord (hnodup : (P.inRecords.map face).Nodup) :
    ((P.insertOrUpdateInRecord inFace i nonce now).inRecords.map face).Nodup := by
  unfold Pit.Entry.insertOrUpdateInRecord
  rcases hk : P.inRecords.findIdx? (fun r => r.face == inFace) with _ | k
  · simp only [hk, map_cons, nodup_cons]
    simp_all
  obtain ⟨hlt, hface, -⟩ := findIdx?_eq_some_iff_getElem.mp hk
  simp only [hk]
  have hsame : (P.inRecords.map face).set k inFace
      = P.inRecords.map face := by
    refine ext_getElem (by simp) fun n h₁ h₂ => ?_
    grind
  rw [map_set, hsame]
  exact hnodup

/-- A received Interest keeps the invariant. -/
theorem NonceInv.received (h : NonceInv s.records m) (hP : s.pit.entries p = some P)
    (env : Env σ) (selects : ℕ → Bool) {s' : Forwarder σ}
    (hs' : s'.records
      = (s.modifyEntry p fun P => P.insertOrUpdateInRecord inFace i nonce now).records) :
    NonceInv s'.records ((bufferHooks env selects).received s' p inFace i m) := by
  have hrecords : s.records p = some P.records := by rw [records, hP]; rfl
  have hnodup := h.backed.distinct p _ hrecords
  -- an in-record is the new one, or an old one at another place
  have hcases : ∀ q rs, s'.records q = some rs → ∀ r ∈ rs.inRecords,
      (q = p ∧ r = ⟨inFace, nonce, now, Pit.expiryOf now i.lifetime, i⟩) ∨
        ¬ (q = p ∧ r.face = inFace) ∧ ∃ rs, s.records q = some rs ∧ r ∈ rs.inRecords := by
    intro q rs hrs r hr
    rw [hs'] at hrs
    by_cases hq : q = p
    · subst hq
      rw [records_modifyEntry_self hP, some.injEq] at hrs
      subst hrs
      rcases (mem_insertOrUpdateInRecord_iff hnodup).mp hr with heq | ⟨hmem, hne⟩
      · exact .inl ⟨rfl, heq⟩
      · exact .inr ⟨fun hkey => hne hkey.2, P.records, hrecords, hmem⟩
    · grind [records_modifyEntry_of_ne]
  have hdistinct : ∀ q rs, s'.records q = some rs → (rs.inRecords.map Pit.InRecord.face).Nodup := by
    intro q rs hrs
    rw [hs'] at hrs
    by_cases hq : q = p
    · subst hq
      rw [records_modifyEntry_self hP, some.injEq] at hrs
      subst hrs
      exact nodup_insertOrUpdateInRecord hnodup
    · rw [records_modifyEntry_of_ne s _ hq] at hrs
      exact h.backed.distinct q rs hrs
  have hbacked : Backed s'.records (m.alloc p inFace i.nonce (!selects m.next)) := by
    refine Backed.alloc hdistinct (fun rs hrs r hr hface => ?_) fun q rs hrs r hr hkey => ?_
    · grind
    · rcases hcases q rs hrs r hr with ⟨rfl, rfl⟩ | ⟨-, rs, hrs, hr⟩
      · exact absurd ⟨rfl, rfl⟩ hkey
      · exact ⟨h.backed.nonce_eq q rs hrs r hr, h.backed.buffer_lt q rs hrs r hr⟩
  refine h.look [] ⟨hbacked.distinct, hbacked.nonce_eq, hbacked.buffer_lt⟩ rfl rfl ?_
  intro hcarries
  refine iff_of_true ⟨fun q rs hrs r hr => ?_, by simp⟩ (by simp)
  rcases hcases q rs hrs r hr with ⟨rfl, rfl⟩ | ⟨hkey, rs, hrs, hr⟩
  · simp
  · simp only [hkey, if_false]
    exact hcarries q rs hrs r hr

end Received

/-! ### All runs -/

/-- The hooks and all changes of records keep the invariant. -/
theorem keeps_nonceInv :
    (bufferHooks env selects).Keeps NonceInv where
  act now s m a h := h.act selects a
  received s m p P inFace i nonce now h hP _ s' hs' := h.received hP env selects hs'
  nacked s m p P inFace r reason now h hP hr s' hs' := by
    have hshrinks : Shrinks Pit.Records.inRecords s.records s'.records := by
      rw [hs']
      refine shrinks_modifyEntry _ p fun P => ?_
      unfold setIncomingNack
      split
      · exact Sublist.refl _
      · exact Sublist.refl _
    refine h.look [] (h.backed.shrinks hshrinks) rfl rfl fun hcarries => ?_
    exact iff_of_true ⟨hcarries.shrinks hshrinks, by simp⟩ (by simp)
  satisfied s m p inFace h := by
    refine h.shrinks (shrinks_modifyEntry _ p fun P => ?_)
    exact nil_sublist _
  inserted R m p h := h.shrinks (shrinks_inserted rfl R p)

/-- The invariant holds at the beginning. -/
theorem nonceInv_create (cs : σ) : NonceInv (create cs).records Buffers.create where
  backed :=
    ⟨fun _ _ h => (by cases h), fun _ _ h => (by cases h), fun _ _ h => (by cases h)⟩
  carries := fun _ _ _ h => by cases h
  ok_iff := by simp [Buffers.create, Buffers.NoneOverwritten]

/-- A run with buffers. -/
def bufferRun (cs : σ) (evs : List Event) : Observed σ Buffers :=
  (bufferHooks env selects).run env (create cs) Buffers.create evs

/-- In every run the in-records hold and the Nacks carry the nonces received last, exactly if each
nonce that is written in place is the nonce that is there already. -/
theorem nonces_kept_iff_none_overwritten (env : Env σ) (selects : ℕ → Bool) (cs : σ)
    (evs : List Event) :
    ((∀ mo ∈ (bufferRun env selects cs evs).memory.moments, mo.Ok) ∧
        Carries (bufferRun env selects cs evs).state.records
          (bufferRun env selects cs evs).memory.received) ↔
      (bufferRun env selects cs evs).memory.NoneOverwritten := by
  have hinv : NonceInv (bufferRun env selects cs evs).state.records
      (bufferRun env selects cs evs).memory :=
    Hooks.keeps_run (keeps_nonceInv env selects) env evs (nonceInv_create cs)
  exact ⟨fun h => hinv.ok_iff.mp h.1, fun h => ⟨hinv.ok_iff.mpr h, hinv.carries h⟩⟩

/-- An Interest comes from face 1 and goes to face 2 with a new nonce; then a Nack goes to face 1.
-/
def newNonceRun : List Event :=
  [.addFace 1, .addFace 2,
    .interest 1 { Pit.plainInterest [.generic [0x41]] with nonce := [1, 0, 0, 0] } 0
      [.sendInterest 0 2 (some 7)],
    .strategy 100 [.sendNack 0 1 150]]

/-- The Nack carries the nonce that was chosen for the other face. -/
theorem nack_carries_new_nonce :
    ((bufferRun plainEnv (fun _ => false) () newNonceRun).memory.moments.flatMap fun mo =>
      mo.nacks.map fun n => (n.2.1, n.2.2.nonce, mo.received n.1 n.2.1))
        = [(1, [7, 0, 0, 0], [1, 0, 0, 0])] ∧
    ¬ ∀ mo ∈ (bufferRun plainEnv (fun _ => false) () newNonceRun).memory.moments, mo.Ok := by
  have hnack : ∃ mo ∈ (bufferRun plainEnv (fun _ => false) () newNonceRun).memory.moments,
      ∃ n ∈ mo.nacks, n.2.2.nonce ≠ mo.received n.1 n.2.1 := by decide +kernel
  refine ⟨by decide +kernel, fun hall => ?_⟩
  obtain ⟨mo, hmo, n, hn, hne⟩ := hnack
  exact hne ((hall mo hmo).2 n hn)

end IcnDemo.Forwarder
