import IcnDemo.Forwarder.Hooks
import IcnDemo.Forwarder.Tables
import IcnDemo.Strategy.BestRoute

/-!
# Nacks in out-records

An out-record holds the Nack that has come for the Interest sent to its face.  It should hold one
exactly if a Nack with the current nonce has come since the Interest was sent there last, and the
best-route strategy relies on this when it decides whether all upstreams have given up.  A record
that is renewed keeps the Nack of the earlier Interest, since `clearIncomingNack` is called nowhere.

The hooks remember which Interests were sent and which Nacks were accepted, and look at all records
after each change.
-/

namespace IcnDemo.Forwarder

open List Option

open BestRoute

variable {σ : Type}

/-! ### The records of a face -/

variable {P : Pit.Entry} {face : FaceRef}

/-- A record that is found has an index. -/
theorem exists_findIdx?_of_getOutRecord {r : Pit.OutRecord} (h : P.getOutRecord face = some r) :
    ∃ k, P.outRecords.findIdx? (fun r => r.face == face) = some k := by
  rcases hfind : P.outRecords.findIdx? (fun r => r.face == face) with _ | k
  · have hno := findIdx?_eq_none_iff.mp hfind r (mem_of_find?_eq_some h)
    have hface : r.face = face := by simpa using find?_some h
    simp [hface] at hno
  · exact ⟨k, hfind⟩

/-- The out-record after an Interest was sent. -/
def renewed (P : Pit.Entry) (face : FaceRef) (i : Interest) (nonce : UInt32) (now : ℤ) :
    Pit.OutRecord :=
  ⟨face, nonce, now, Pit.expiryOf now i.lifetime,
    (P.getOutRecord face).bind Pit.OutRecord.incomingNack⟩

/-- The out-records after an Interest was sent. -/
theorem mem_insertOrUpdateOutRecord {i : Interest} {nonce : UInt32}
    {now : ℤ} {r' : Pit.OutRecord} (hnodup : (P.outRecords.map Pit.OutRecord.face).Nodup) :
    r' ∈ (P.insertOrUpdateOutRecord face i nonce now).outRecords ↔
      r' = renewed P face i nonce now ∨ r' ∈ P.outRecords ∧ r'.face ≠ face := by
  unfold Pit.Entry.insertOrUpdateOutRecord renewed
  rcases hr : P.getOutRecord face with _ | r
  · have hno : ∀ r ∈ P.outRecords, (r.face == face) = false := by
      intro r hmem
      simpa using find?_eq_none.mp hr r hmem
    grind
  · obtain ⟨k, hk⟩ := exists_findIdx?_of_getOutRecord hr
    have hface : r.face = face := by simpa using find?_some hr
    simp only [hk, bind_some]
    rw [Keyed.mem_modify_findIdx? Pit.OutRecord.face _ hnodup hr hk, ← hface]

/-- The out-records after a Nack was accepted. -/
theorem mem_setIncomingNack {reason : ℕ} {r r' : Pit.OutRecord}
    (hnodup : (P.outRecords.map Pit.OutRecord.face).Nodup) (hr : P.getOutRecord face = some r) :
    r' ∈ (setIncomingNack P face reason).outRecords ↔
      r' = { r with incomingNack := some reason } ∨ r' ∈ P.outRecords ∧ r'.face ≠ face := by
  obtain ⟨k, hk⟩ := exists_findIdx?_of_getOutRecord hr
  unfold setIncomingNack
  simp only [hk]
  exact Keyed.mem_modify_findIdx? Pit.OutRecord.face _ hnodup hr hk

/-! ### What is remembered -/

/-- An Interest that was sent, with the out-record that was there before, or a Nack that was
accepted. -/
inductive Upstream where
  | sent (p : Pit.EntryId) (face : FaceRef) (before : Option Pit.OutRecord)
  | nacked (p : Pit.EntryId) (face : FaceRef) (nonce : UInt32)
deriving DecidableEq

/-- A Nack with the nonce has come from the face since an Interest was sent there.  The latest is
first. -/
def nackedSince (p : Pit.EntryId) (face : FaceRef) (nonce : UInt32) : List Upstream → Bool
  | [] => false
  | .sent q g _ :: us => if q = p ∧ g = face then false else nackedSince p face nonce us
  | .nacked q g n :: us =>
      if q = p ∧ g = face ∧ n = nonce then true else nackedSince p face nonce us

/-- The Interest was sent although the out-record held a Nack. -/
def Upstream.RenewsNacked : Upstream → Prop
  | .sent _ _ before => ∃ r, before = some r ∧ r.incomingNack.isSome = true
  | .nacked _ _ _ => False

/-- A call of the strategy after a Nack. -/
structure NackCallback where
  p : Pit.EntryId
  entry : Pit.Entry
  now : ℤ

/-- A look at the records of all PIT entries, at what has happened up to now, and at the callback if
there is one. -/
structure Moment where
  records : Pit.EntryId → Option Pit.Records
  upstreams : List Upstream
  callback : Option NackCallback

/-- What has happened, and all looks at it. -/
structure NackMemory where
  upstreams : List Upstream
  moments : List Moment

/-- Note what has happened, and look. -/
def NackMemory.note (m : NackMemory) (us : List Upstream)
    (records : Pit.EntryId → Option Pit.Records) (callback : Option NackCallback) : NackMemory where
  upstreams := us ++ m.upstreams
  moments := ⟨records, us ++ m.upstreams, callback⟩ :: m.moments

/-- What an action sends to an upstream. -/
def sentBy (s s' : Forwarder σ) : Action → List Upstream
  | .sendInterest p outFace _ =>
      if s'.log.length = s.log.length then []
      else [.sent p outFace ((s.pit.entries p).bind fun P => P.getOutRecord outFace)]
  | _ => []

variable (env : Env σ)

/-- The hooks that remember. -/
def nackHooks : Hooks σ NackMemory where
  act now s m a :=
    let r := act env now s a
    ⟨r.state, m.note (sentBy s r.state a) r.state.records none, r.signal⟩
  received s _ _ _ m := m.note [] s.records none
  nacked now s p inFace nonce m :=
    m.note [.nacked p inFace nonce] s.records ((s.pit.entries p).map fun P => ⟨p, P, now⟩)

/-- The hooks only watch. -/
theorem nackHooks_passive : (nackHooks env).Passive env :=
  fun _ _ _ _ => rfl

/-! ### What should hold -/

/-- Every out-record holds a Nack exactly if one has come since the Interest was sent. -/
def NacksAgree (R : Pit.EntryId → Option Pit.Records) (us : List Upstream) : Prop :=
  ∀ p rs, R p = some rs → ∀ r ∈ rs.outRecords,
    (r.incomingNack.isSome = true ↔ nackedSince p r.face r.lastNonce us = true)

/-- The strategy sends no Nack while an Interest that has not been Nacked is pending. -/
def Moment.Silent (mo : Moment) : Prop :=
  ∀ c, mo.callback = some c → SendsNack (afterReceiveNack c.p c.entry) →
    ∀ r ∈ c.entry.outRecords, c.now ≤ r.expiry →
      nackedSince c.p r.face r.lastNonce mo.upstreams = true

/-- At a moment all is well. -/
def Moment.Ok (mo : Moment) : Prop :=
  NacksAgree mo.records mo.upstreams ∧ mo.Silent

/-- The strategy is called when only a downstream has not sent a Nack. -/
def Moment.Bidirectional (mo : Moment) : Prop :=
  ∃ c, mo.callback = some c ∧ BestRoute.Bidirectional c.entry c.now

/-- The faces of the out-records of an entry are distinct. -/
def Distinct (R : Pit.EntryId → Option Pit.Records) : Prop :=
  ∀ p rs, R p = some rs → (rs.outRecords.map Pit.OutRecord.face).Nodup

section Shrinks

variable {R R' : Pit.EntryId → Option Pit.Records} {us : List Upstream}

/-- The faces stay distinct if no record is added. -/
theorem Distinct.shrinks (hR : Distinct R) (h : Shrinks Pit.Records.outRecords R R') :
    Distinct R' := by
  intro p rs' hrs'
  rcases h p rs' hrs' with hnil | ⟨rs, hrs, hsub⟩
  · simp [hnil]
  · exact (hR p rs hrs).sublist (hsub.map _)

/-- The Nacks stay right if no record is added. -/
theorem NacksAgree.shrinks (hR : NacksAgree R us) (h : Shrinks Pit.Records.outRecords R R') :
    NacksAgree R' us := by
  intro p rs' hrs' r hr
  rcases h p rs' hrs' with hnil | ⟨rs, hrs, hsub⟩
  · rw [hnil] at hr
    cases hr
  · exact hR p rs hrs r (hsub.subset hr)

end Shrinks

/-! ### Interests and Nacks -/

section Changes

variable {s : Forwarder σ} {p : Pit.EntryId} {P : Pit.Entry} {face : FaceRef} {us : List Upstream}
  {nonce : UInt32}

/-- An Interest was just sent. -/
theorem nackedSince_sent_self {before : Option Pit.OutRecord} :
    nackedSince p face nonce (.sent p face before :: us) = false := by
  simp [nackedSince]

/-- An Interest to another face does not matter. -/
theorem nackedSince_sent_of_ne {q : Pit.EntryId} {g : FaceRef}
    {before : Option Pit.OutRecord} (h : ¬ (p = q ∧ face = g)) :
    nackedSince q g nonce (.sent p face before :: us) = nackedSince q g nonce us := by
  simp [nackedSince, h]

/-- A Nack has just come. -/
theorem nackedSince_nacked_self : nackedSince p face nonce (.nacked p face nonce :: us) = true := by
  simp [nackedSince]

/-- A Nack from another face does not matter. -/
theorem nackedSince_nacked_of_ne {q : Pit.EntryId} {g : FaceRef} {nonce' : UInt32}
    (h : ¬ (p = q ∧ face = g)) :
    nackedSince q g nonce (.nacked p face nonce' :: us) = nackedSince q g nonce us := by
  have hne : ¬ (p = q ∧ face = g ∧ nonce' = nonce) := fun hall => h ⟨hall.1, hall.2.1⟩
  simp [nackedSince, hne]

variable (hs : Distinct s.records) (hP : s.pit.entries p = some P)

include hs hP

/-- After an Interest was sent the Nacks are right unless the record held one. -/
theorem agree_sent_iff (i : Interest)
    (nonce : UInt32) (now : ℤ) (hagree : NacksAgree s.records us) :
    NacksAgree (s.modifyEntry p fun P => P.insertOrUpdateOutRecord face i nonce now).records
        (.sent p face (P.getOutRecord face) :: us) ↔
      ¬ (Upstream.sent p face (P.getOutRecord face)).RenewsNacked := by
  have hrecords : s.records p = some P.records := by rw [records, hP]; rfl
  have hnodup := hs p _ hrecords
  constructor
  · rintro hnew ⟨r, hr, hnack⟩
    have hiff := hnew p _ (records_modifyEntry_self hP _) (renewed P face i nonce now)
      ((mem_insertOrUpdateOutRecord hnodup).mpr (.inl rfl))
    grind [renewed, nackedSince_sent_self]
  intro hnot q rs hrs r hr
  by_cases hq : q = p
  · subst hq
    rw [records_modifyEntry_self hP, some.injEq] at hrs
    subst hrs
    rcases (mem_insertOrUpdateOutRecord hnodup).mp hr with rfl | ⟨hmem, hne⟩
    · rw [show (renewed P face i nonce now).face = face from rfl, nackedSince_sent_self]
      refine iff_of_false ?_ Bool.false_ne_true
      intro hsome
      obtain ⟨code, hcode⟩ := isSome_iff_exists.mp hsome
      obtain ⟨r, hr, hnack⟩ := bind_eq_some_iff.mp hcode
      exact hnot ⟨r, hr, by rw [hnack]; rfl⟩
    · rw [nackedSince_sent_of_ne fun heq => hne heq.2.symm]
      exact hagree q _ hrecords r hmem
  · rw [records_modifyEntry_of_ne s _ hq] at hrs
    rw [nackedSince_sent_of_ne fun heq => hq heq.1.symm]
    exact hagree q rs hrs r hr

/-- After a Nack was accepted the Nacks are right. -/
theorem agree_nacked {r : Pit.OutRecord}
    (hr : P.getOutRecord face = some r) (reason : ℕ) (hagree : NacksAgree s.records us) :
    NacksAgree (s.modifyEntry p fun P => setIncomingNack P face reason).records
      (.nacked p face r.lastNonce :: us) := by
  have hrecords : s.records p = some P.records := by rw [records, hP]; rfl
  have hface : r.face = face := by simpa using find?_some hr
  intro q rs hrs r' hr'
  by_cases hq : q = p
  · subst hq
    rw [records_modifyEntry_self hP, some.injEq] at hrs
    subst hrs
    rcases (mem_setIncomingNack (hs q _ hrecords) hr).mp hr' with rfl | ⟨hmem, hne⟩
    · dsimp only
      rw [hface, nackedSince_nacked_self]
      simp
    · rw [nackedSince_nacked_of_ne fun heq => hne heq.2.symm]
      exact hagree q _ hrecords r' hmem
  · rw [records_modifyEntry_of_ne s _ hq] at hrs
    rw [nackedSince_nacked_of_ne fun heq => hq heq.1.symm]
    exact hagree q rs hrs r' hr'

/-- Sending keeps the faces distinct. -/
theorem distinct_sent (i : Interest) (nonce : UInt32) (now : ℤ) :
    Distinct (s.modifyEntry p fun P => P.insertOrUpdateOutRecord face i nonce now).records := by
  intro q rs hrs
  by_cases hq : q = p
  · subst hq
    rw [records_modifyEntry_self hP, some.injEq] at hrs
    subst hrs
    have hnodup := hs q P.records (by rw [records, hP]; rfl)
    change ((P.insertOrUpdateOutRecord face i nonce now).outRecords.map Pit.OutRecord.face).Nodup
    rw [map_face_insertOrUpdateOutRecord]
    split_ifs with hmem
    · exact hnodup
    · exact nodup_cons.mpr ⟨hmem, hnodup⟩
  · rw [records_modifyEntry_of_ne s _ hq] at hrs
    exact hs q rs hrs

/-- A Nack keeps the faces distinct. -/
theorem distinct_nacked (reason : ℕ) :
    Distinct (s.modifyEntry p fun P => setIncomingNack P face reason).records := by
  intro q rs hrs
  by_cases hq : q = p
  · subst hq
    rw [records_modifyEntry_self hP, some.injEq] at hrs
    subst hrs
    change ((setIncomingNack P face reason).outRecords.map Pit.OutRecord.face).Nodup
    rw [map_face_setIncomingNack]
    exact hs q P.records (by rw [records, hP]; rfl)
  · rw [records_modifyEntry_of_ne s _ hq] at hrs
    exact hs q rs hrs

end Changes

/-! ### All runs -/

/-- No Interest was sent while its out-record held a Nack. -/
def NackMemory.NoneRenewed (m : NackMemory) : Prop :=
  ∀ u ∈ m.upstreams, ¬ u.RenewsNacked

/-- What holds of the records and the memory at all times. -/
structure NackInv (R : Pit.EntryId → Option Pit.Records) (m : NackMemory) : Prop where
  distinct : Distinct R
  agree : m.NoneRenewed → NacksAgree R m.upstreams
  ok_iff : (∀ mo ∈ m.moments, mo.Ok) ↔ m.NoneRenewed ∧ ∀ mo ∈ m.moments, ¬ mo.Bidirectional

/-- Where the Nacks are right, the strategy errs in the bidirectional case only. -/
theorem Moment.silent_iff {mo : Moment} (hagree : NacksAgree mo.records mo.upstreams)
    (hentry : ∀ c, mo.callback = some c → mo.records c.p = some c.entry.records) :
    mo.Silent ↔ ¬ mo.Bidirectional := by
  have hsame : ∀ c, mo.callback = some c → ∀ r ∈ c.entry.outRecords,
      (r.incomingNack.isSome = true ↔ nackedSince c.p r.face r.lastNonce mo.upstreams = true) :=
    fun c hc => hagree c.p _ (hentry c hc)
  constructor
  · rintro hsilent ⟨c, hc, hbidirectional⟩
    refine (sendsNack_afterReceiveNack_iff (p := c.p)).mp ?_ hbidirectional
    exact fun hsends r hr hpending =>
      (hsame c hc r hr).mpr (hsilent c hc hsends r hr hpending)
  · intro hnot c hc hsends r hr hpending
    have hone : ¬ BestRoute.Bidirectional c.entry c.now := fun h => hnot ⟨c, hc, h⟩
    exact (hsame c hc r hr).mp (sendsNack_afterReceiveNack_iff.mpr hone hsends r hr hpending)

variable {m : NackMemory} {R R' : Pit.EntryId → Option Pit.Records}

/-- Noting what has happened keeps the invariant. -/
theorem NackInv.note (h : NackInv R m)
    (us : List Upstream) (callback : Option NackCallback) (hdistinct : Distinct R')
    (hentry : ∀ c, callback = some c → R' c.p = some c.entry.records)
    (hagree : NacksAgree R m.upstreams →
      (NacksAgree R' (us ++ m.upstreams) ↔ ∀ u ∈ us, ¬ u.RenewsNacked)) :
    NackInv R' (m.note us R' callback) := by
  have hrenewed : (m.note us R' callback).NoneRenewed ↔
      (∀ u ∈ us, ¬ u.RenewsNacked) ∧ m.NoneRenewed := by
    simp only [NackMemory.NoneRenewed, NackMemory.note, forall_mem_append]
  have hmoments : ∀ test : Moment → Prop, (∀ mo ∈ (m.note us R' callback).moments, test mo) ↔
      test ⟨R', us ++ m.upstreams, callback⟩ ∧ ∀ mo ∈ m.moments, test mo :=
    fun test => forall_mem_cons
  refine ⟨hdistinct, fun hnone => ?_, ?_⟩
  · obtain ⟨hus, hold⟩ := hrenewed.mp hnone
    exact (hagree (h.agree hold)).mpr hus
  rw [hrenewed, hmoments, hmoments]
  by_cases hold : m.NoneRenewed
  · have hnow := hagree (h.agree hold)
    have hok : (Moment.mk R' (us ++ m.upstreams) callback).Ok ↔ (∀ u ∈ us, ¬ u.RenewsNacked) ∧
          ¬ (Moment.mk R' (us ++ m.upstreams) callback).Bidirectional := by
      constructor
      · rintro ⟨hag, hsilent⟩
        exact ⟨hnow.mp hag, (Moment.silent_iff hag hentry).mp hsilent⟩
      · rintro ⟨hus, hnot⟩
        exact ⟨hnow.mpr hus, (Moment.silent_iff (hnow.mpr hus) hentry).mpr hnot⟩
    rw [hok, h.ok_iff]
    tauto
  · -- an earlier Interest has spoilt it for good
    refine iff_of_false (fun hall => hold (h.ok_iff.mp hall.2).1) (fun hall => hold hall.1.2)

/-- Looking after a change that adds no record keeps the invariant. -/
theorem NackInv.note_shrinks (h : NackInv R m) (hshrinks : Shrinks Pit.Records.outRecords R R') :
    NackInv R' (m.note [] R' none) := by
  refine h.note [] none (h.distinct.shrinks hshrinks) (fun c hc => by cases hc) fun hagree => ?_
  exact iff_of_true (hagree.shrinks hshrinks) (by simp)

/-- A change that adds no record keeps the invariant. -/
theorem NackInv.shrinks (h : NackInv R m)
    (hshrinks : Shrinks Pit.Records.outRecords R R') : NackInv R' m :=
  ⟨h.distinct.shrinks hshrinks, fun hnone => (h.agree hnone).shrinks hshrinks, h.ok_iff⟩

/-- An action keeps the invariant. -/
theorem NackInv.act {env : Env σ} {now : ℤ} {s : Forwarder σ}
    (h : NackInv s.records m) (a : Action) :
    NackInv ((nackHooks env).act now s m a).state.records
      ((nackHooks env).act now s m a).memory := by
  change NackInv (Forwarder.act env now s a).state.records
    (m.note (sentBy s (Forwarder.act env now s a).state a) (Forwarder.act env now s a).state.records
      none)
  rcases a with ⟨p, outFace, newNonce⟩ | p | ⟨p, outFace, reason⟩
  · simp only [Forwarder.act]
    rcases onOutgoingInterest_cases env s p outFace newNonce now with
      heq | ⟨P, r, i, nonce, hP, -, -, -, -, heq⟩
    · rw [heq]
      simp only [sentBy, if_true]
      exact h.note_shrinks (Shrinks.refl _ _)
    rw [heq]
    have hsent : sentBy s ((s.modifyEntry p fun P => P.insertOrUpdateOutRecord outFace i nonce
        now).emit (.sendInterest outFace P i)) (.sendInterest p outFace newNonce)
          = [.sent p outFace (P.getOutRecord outFace)] := by
      simp [sentBy, hP]
    simp only [hsent]
    refine h.note _ none (distinct_sent h.distinct hP i nonce now) (fun c hc => by cases hc)
      fun hagree => ?_
    rw [forall_mem_singleton]
    exact agree_sent_iff h.distinct hP i nonce now hagree
  · simp only [Forwarder.act, sentBy]
    rcases onInterestReject_cases s p now with heq | ⟨P, -, -, heq⟩
    · rw [heq]
      exact h.note_shrinks (Shrinks.refl _ _)
    · rw [heq, records_congr (core_setStragglerTimer p false _)]
      exact h.note_shrinks (Shrinks.refl _ _)
  · simp only [Forwarder.act, sentBy]
    rcases onOutgoingNack_cases env s p outFace reason with heq | ⟨P, r, -, -, -, heq⟩
    · rw [heq]
      exact h.note_shrinks (Shrinks.refl _ _)
    · rw [heq]
      exact h.note_shrinks (shrinks_modifyEntry _ p fun P => List.Sublist.refl _)

/-- The hooks and all changes of records keep the invariant. -/
theorem keeps_nackInv : (nackHooks env).Keeps NackInv where
  act now s m a h := h.act a
  received s m p P inFace i nonce now h _ _ s' hs' := by
    refine h.note_shrinks ?_
    rw [hs']
    refine shrinks_modifyEntry _ p fun P => ?_
    unfold Pit.Entry.insertOrUpdateInRecord
    dsimp only
    split
    · exact Sublist.refl _
    · exact Sublist.refl _
  nacked s m p P inFace r reason now h hP hr s' hs' := by
    subst hs'
    refine h.note [.nacked p inFace r.lastNonce] _ (distinct_nacked h.distinct hP reason) ?_ ?_
    · grind [map_eq_some_iff, records]
    · intro hagree
      refine iff_of_true (agree_nacked h.distinct hP hr reason hagree) ?_
      rw [forall_mem_singleton]
      exact id
  satisfied s m p inFace h :=
    h.shrinks (shrinks_modifyEntry _ p fun P => eraseP_sublist)
  inserted R m p h := h.shrinks (shrinks_inserted rfl R p)

/-- The invariant holds at the beginning. -/
theorem nackInv_create (cs : σ) : NackInv (create cs).records ⟨[], []⟩ where
  distinct := fun _ _ h => by cases h
  agree := fun _ _ _ h => by cases h
  ok_iff := by simp [NackMemory.NoneRenewed]

/-- A run with everything that is remembered of it. -/
def nackRun (cs : σ) (evs : List Event) : Observed σ NackMemory :=
  (nackHooks env).run env (create cs) ⟨[], []⟩ evs

/-- An Interest for `/A` with a nonce. -/
def interestA (nonce : UInt8) : Interest :=
  { Pit.plainInterest [.generic [0x41]] with nonce := [nonce, 0, 0, 0] }

/-- An Interest goes to face 2 and its retransmission to face 3, the Nack of face 2 arrives, a
second retransmission goes to face 2 again, and the Nack of face 3 arrives. -/
def renewedAfterNack : List Event :=
  [.addFace 1, .addFace 2, .addFace 3, .interest 1 (interestA 1) 0 [.sendInterest 0 2 none],
    .interest 1 (interestA 2) 100 [.sendInterest 0 3 none],
    .nack 2 (interestA 1) noRoute 200 [],
    .interest 1 (interestA 3) 300 [.sendInterest 0 2 none],
    .nack 3 (interestA 2) noRoute 400 [.sendNack 0 1 noRoute]]

end IcnDemo.Forwarder
