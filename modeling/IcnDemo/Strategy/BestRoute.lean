import IcnDemo.Fib.Entry
import IcnDemo.Forwarder.Frame

/-!
# The best-route strategy

`BestRouteStrategy2` sends an Interest to the next hop of the lowest cost, and a retransmission to
an unused next hop or, when all are in use, to the one that was used earliest.  The scan for the
latter assumes that every next hop has an out-record, which is so because the scan for an unused one
has failed. It starts with `TimePoint::max()` and looks for an earlier time, which an unexpired
out-record always has, since it was renewed at or before now.
-/

namespace IcnDemo

open List

/-- `RetxSuppression::Result`. -/
inductive RetxDecision where
  | new
  | forward
  | suppress
deriving DecidableEq, Repr

namespace BestRoute

open Forwarder Fib

/-- `time::steady_clock::TimePoint::max()`. -/
def timePointMax : ℤ := 2 ^ 63 - 1

/-- `lp::NackReason::NO_ROUTE`. -/
def noRoute : ℕ := 150

variable {σ : Type} (env : Env σ) (faceIds : FaceRef → ℕ)

/-- `predicate_NextHop_eligible`. -/
def isEligible (P : Pit.Entry) (currentDownstream : ℕ) (wantUnused : Bool) (now : ℤ)
    (nexthop : NextHop) : Bool :=
  if faceIds nexthop.face = currentDownstream then false
  else if violatesScope env P nexthop.face then false
  else if wantUnused then
    match P.getOutRecord nexthop.face with
    | none => true
    | some outRecord => !decide (now < outRecord.expiry)
  else true

/-- The loop of `findEligibleNextHopWithEarliestOutRecord`, `none` when the assertion fails. -/
def findLoop (P : Pit.Entry) (currentDownstream : ℕ) :
    List NextHop → Option NextHop → ℤ → Option (Option NextHop)
  | [], found, _ => some found
  | nexthop :: rest, found, earliestRenewed =>
      -- the time is not looked at
      if !isEligible env faceIds P currentDownstream false 0 nexthop then
        findLoop P currentDownstream rest found earliestRenewed
      else
        match P.getOutRecord nexthop.face with
        | none => none
        | some outRecord =>
            if outRecord.lastRenewed < earliestRenewed then
              findLoop P currentDownstream rest (some nexthop) outRecord.lastRenewed
            else findLoop P currentDownstream rest found earliestRenewed

/-- `findEligibleNextHopWithEarliestOutRecord`. -/
def findEligibleNextHopWithEarliestOutRecord (P : Pit.Entry) (nexthops : List NextHop)
    (currentDownstream : ℕ) : Option (Option NextHop) :=
  findLoop env faceIds P currentDownstream nexthops none timePointMax

/-- `BestRouteStrategy2::afterReceiveInterest`: the actions, `none` when the assertion fails. -/
def afterReceiveInterest (suppression : RetxDecision) (inFace : FaceRef) (p : Pit.EntryId)
    (P : Pit.Entry) (nexthops : List NextHop) (now : ℤ) : Option (List Action) :=
  match suppression with
  | .new =>
      match nexthops.find? (isEligible env faceIds P (faceIds inFace) false 0) with
      | none => some [.sendNack p inFace noRoute, .rejectPendingInterest p]
      | some nexthop => some [.sendInterest p nexthop.face none]
  | .suppress => some []
  | .forward =>
      match nexthops.find? (isEligible env faceIds P (faceIds inFace) true now) with
      | some nexthop => some [.sendInterest p nexthop.face none]
      | none =>
          (findEligibleNextHopWithEarliestOutRecord env faceIds P nexthops (faceIds inFace)).map fun
              | none => []
              | some nexthop => [.sendInterest p nexthop.face none]

/-- `compareLessSevere`. -/
def compareLessSevere (x y : ℕ) : ℕ :=
  if x = 0 then y else if y = 0 then x else min x y

/-- `NackHeader::getReason`: an unknown code is `NONE`. -/
def getReason (code : ℕ) : ℕ :=
  if code = 50 ∨ code = 100 ∨ code = 150 then code else 0

/-- `Strategy::sendNacks`, to the faces of the in-records. -/
def sendNacks (p : Pit.EntryId) (P : Pit.Entry) (reason : ℕ) : List Action :=
  ((P.inRecords.map Pit.InRecord.face).dedup).map fun face => .sendNack p face reason

/-- The out-records without a Nack. -/
def notNacked (P : Pit.Entry) : List Pit.OutRecord :=
  P.outRecords.filter fun outR => outR.incomingNack.isNone

/-- The least severe reason of the Nacks in the out-records. -/
def leastSevereReason (P : Pit.Entry) : ℕ :=
  P.outRecords.foldl (fun reason outR =>
    match outR.incomingNack with
    | none => reason
    | some code => compareLessSevere reason (getReason code)) 0

/-- `BestRouteStrategy2::afterReceiveNack`: the actions. -/
def afterReceiveNack (p : Pit.EntryId) (P : Pit.Entry) : List Action :=
  match (notNacked P).getLast? with
  | none => sendNacks p P (leastSevereReason P)
  | some last =>
      if (notNacked P).length = 1 ∧ (P.getInRecord last.face).isSome = true then
        [.sendNack p last.face (leastSevereReason P)]
      else []

/-! ### Next hops -/

/-- A next hop that is not the downstream and does not violate the scope. -/
def Eligible (P : Pit.Entry) (inFace : FaceRef) (nexthop : NextHop) : Prop :=
  faceIds nexthop.face ≠ faceIds inFace ∧ violatesScope env P nexthop.face = false

/-- There is an unexpired out-record for the face. -/
def Used (P : Pit.Entry) (now : ℤ) (face : FaceRef) : Prop :=
  ∃ r, P.getOutRecord face = some r ∧ now < r.expiry

variable {env faceIds} {P : Pit.Entry} {inFace : FaceRef} {nexthop : NextHop} {now : ℤ}
  {nexthops : List NextHop} {p : Pit.EntryId}

/-- The test without `wantUnused`. -/
theorem isEligible_iff : isEligible env faceIds P (faceIds inFace) false now nexthop = true ↔
      Eligible env faceIds P inFace nexthop := by grind [isEligible, Eligible]

/-- The test with `wantUnused`. -/
theorem isEligible_unused_iff : isEligible env faceIds P (faceIds inFace) true now nexthop = true ↔
      Eligible env faceIds P inFace nexthop ∧ ¬ Used P now nexthop.face := by
  grind [isEligible, Eligible, Used]

/-- An eligible next hop is not the incoming face. -/
theorem Eligible.face_ne (h : Eligible env faceIds P inFace nexthop) : nexthop.face ≠ inFace :=
  fun heq => h.1 (by rw [heq])

/-- A next hop with a property that has the lowest cost of those with the property. -/
structure Cheapest (test : NextHop → Prop) (nexthops : List NextHop) (nexthop : NextHop) :
    Prop where
  mem : nexthop ∈ nexthops
  ok : test nexthop
  cost_le : ∀ other ∈ nexthops, test other → nexthop.cost ≤ other.cost

/-- The first next hop that passes a test is the cheapest. -/
theorem cheapest_of_find? (hsorted : ByCost nexthops) {b : NextHop → Bool} {test : NextHop → Prop}
    (hiff : ∀ n, b n = true ↔ test n) (h : nexthops.find? b = some nexthop) :
    Cheapest test nexthops nexthop where
  mem := mem_of_find?_eq_some h
  ok := (hiff nexthop).mp (find?_some h)
  cost_le := fun other hother hok => cost_le_of_find? hsorted h other hother ((hiff other).mpr hok)

/-- The out-record of a next hop was renewed at a time. -/
def RenewedAt (P : Pit.Entry) (nexthop : NextHop) (t : ℤ) : Prop :=
  ∃ r, P.getOutRecord nexthop.face = some r ∧ r.lastRenewed = t

/-- An eligible next hop whose out-record was renewed at a time before which none was. -/
structure Earliest (test : NextHop → Prop) (P : Pit.Entry) (nexthops : List NextHop)
    (nexthop : NextHop) (t : ℤ) : Prop where
  mem : nexthop ∈ nexthops
  ok : test nexthop
  renewed : RenewedAt P nexthop t
  le : ∀ other ∈ nexthops, test other → ∀ t', RenewedAt P other t' → t ≤ t'

/-- A later next hop in front does not matter. -/
theorem Earliest.cons_of_lt {test : NextHop → Prop} {first : NextHop} {t t' : ℤ}
    (h : Earliest test P nexthops nexthop t) (hfirst : RenewedAt P first t') (hle : t ≤ t') :
    Earliest test P (first :: nexthops) nexthop t where
  mem := mem_cons_of_mem _ h.mem
  ok := h.ok
  renewed := h.renewed
  le := by
    intro other hother hok t'' ht''
    rcases mem_cons.mp hother with rfl | hother
    · obtain ⟨r, hr, rfl⟩ := hfirst
      obtain ⟨r', hr', rfl⟩ := ht''
      rw [hr] at hr'
      rwa [← Option.some.inj hr']
    · exact h.le other hother hok t'' ht''

/-- The loop returns the next hop that was renewed first. -/
theorem findLoop_spec (hrecords : ∀ n ∈ nexthops, Eligible env faceIds P inFace n →
      ∃ t, RenewedAt P n t) (found : Option NextHop) (earliest : ℤ) :
    ∃ result, findLoop env faceIds P (faceIds inFace) nexthops found earliest = some result ∧
      ((result = found ∧ ∀ n ∈ nexthops, Eligible env faceIds P inFace n → ∀ t, RenewedAt P n t →
          earliest ≤ t) ∨
        ∃ n t, result = some n ∧ t < earliest ∧
          Earliest (Eligible env faceIds P inFace) P nexthops n t) := by
  induction nexthops generalizing found earliest with
  | nil => exact ⟨found, rfl, .inl ⟨rfl, fun n hn => absurd hn not_mem_nil⟩⟩
  | cons first rest ih =>
    have hrest : ∀ n ∈ rest, Eligible env faceIds P inFace n → ∃ t, RenewedAt P n t :=
      fun n hn => hrecords n (mem_cons_of_mem _ hn)
    unfold findLoop
    by_cases heligible : Eligible env faceIds P inFace first
    · rw [isEligible_iff.mpr heligible]
      obtain ⟨t, r, hr, rfl⟩ := hrecords first mem_cons_self heligible
      simp only [Bool.not_true, Bool.false_eq_true, if_false, hr]
      by_cases hlt : r.lastRenewed < earliest
      · rw [if_pos hlt]
        obtain ⟨result, hresult, hcases⟩ := ih hrest (some first) r.lastRenewed
        refine ⟨result, hresult, .inr ?_⟩
        rcases hcases with ⟨rfl, hle⟩ | ⟨n, t, rfl, ht, hn⟩
        · refine ⟨first, r.lastRenewed, rfl, hlt, mem_cons_self, heligible, ⟨r, hr, rfl⟩, ?_⟩
          intro other hother hok t' ht'
          rcases mem_cons.mp hother with rfl | hother
          · obtain ⟨r', hr', rfl⟩ := ht'
            rw [hr] at hr'
            rw [Option.some.inj hr']
          · exact hle other hother hok t' ht'
        · exact ⟨n, t, rfl, ht.trans hlt, hn.cons_of_lt ⟨r, hr, rfl⟩ ht.le⟩
      rw [if_neg hlt]
      obtain ⟨result, hresult, hcases⟩ := ih hrest found earliest
      refine ⟨result, hresult, ?_⟩
      rcases hcases with ⟨rfl, hle⟩ | ⟨n, t, rfl, ht, hn⟩
      · refine .inl ⟨rfl, fun n hn hok t ht => ?_⟩
        rcases mem_cons.mp hn with rfl | hn
        · obtain ⟨r', hr', rfl⟩ := ht
          rw [hr] at hr'
          rw [← Option.some.inj hr']
          exact not_lt.mp hlt
        · exact hle n hn hok t ht
      · exact .inr ⟨n, t, rfl, ht, hn.cons_of_lt ⟨r, hr, rfl⟩ (ht.le.trans (not_lt.mp hlt))⟩
    · have hnot : isEligible env faceIds P (faceIds inFace) false 0 first = false := by
        rw [Bool.eq_false_iff]
        exact fun h => heligible (isEligible_iff.mp h)
      rw [hnot]
      simp only [Bool.not_false, if_true]
      obtain ⟨result, hresult, hcases⟩ := ih hrest found earliest
      refine ⟨result, hresult, ?_⟩
      rcases hcases with ⟨rfl, hle⟩ | ⟨n, t, rfl, ht, hn⟩
      · grind
      refine .inr ⟨n, t, rfl, ht, mem_cons_of_mem _ hn.mem, hn.ok, hn.renewed, ?_⟩
      intro other hother hok t' ht'
      rcases mem_cons.mp hother with rfl | hother
      · exact absurd hok heligible
      · exact hn.le other hother hok t' ht'

/-! ### Incoming Interests -/

variable (env faceIds P inFace now nexthops p) in
/-- What the strategy should do, by the decision on the retransmission. -/
def Chooses (acts : List Action) : RetxDecision → Prop
  | .new =>
      (∃ n, Cheapest (Eligible env faceIds P inFace) nexthops n ∧
          acts = [.sendInterest p n.face none]) ∨
        (∀ n ∈ nexthops, ¬ Eligible env faceIds P inFace n) ∧
          acts = [.sendNack p inFace noRoute, .rejectPendingInterest p]
  | .suppress => acts = []
  | .forward =>
      (∃ n, Cheapest (fun n => Eligible env faceIds P inFace n ∧ ¬ Used P now n.face) nexthops n ∧
          acts = [.sendInterest p n.face none]) ∨
        (∀ n ∈ nexthops, Eligible env faceIds P inFace n → Used P now n.face) ∧
          ((∃ n t, Earliest (Eligible env faceIds P inFace) P nexthops n t ∧
              acts = [.sendInterest p n.face none]) ∨
            (∀ n ∈ nexthops, ¬ Eligible env faceIds P inFace n) ∧ acts = [])

variable (env faceIds P inFace now nexthops p) in
/-- No assertion fails, no Interest is sent to the incoming face or against the scope, and the right
next hop is chosen. -/
def Obeys (decision : RetxDecision) : Prop :=
  ∃ acts, afterReceiveInterest env faceIds decision inFace p P nexthops now = some acts ∧
    (∀ q face nonce, Action.sendInterest q face nonce ∈ acts →
      face ≠ inFace ∧ violatesScope env P face = false) ∧
    Chooses env faceIds P inFace now nexthops p acts decision

variable (env faceIds P inFace now nexthops) in
/-- All eligible next hops are in use, and were renewed at the end of time. -/
def OnlyAtMax : Prop :=
  (∃ n ∈ nexthops, Eligible env faceIds P inFace n) ∧
    ∀ n ∈ nexthops, Eligible env faceIds P inFace n → Used P now n.face ∧
      ∀ t, RenewedAt P n t → timePointMax ≤ t

/-- The Interest is sent to one face. -/
theorem mem_sendInterest {q : Pit.EntryId} {face face' : FaceRef} {nonce : Option UInt32}
    (h : Action.sendInterest q face nonce ∈ [Action.sendInterest p face' none]) : face = face' := by
  rw [mem_singleton] at h
  cases h
  rfl

/-- An Interest to an eligible next hop is in order. -/
theorem Eligible.send_ok (h : Eligible env faceIds P inFace nexthop) :
    ∀ q face nonce, Action.sendInterest q face nonce ∈ [Action.sendInterest p nexthop.face none] →
      face ≠ inFace ∧ violatesScope env P face = false := by
  intro q face nonce hmem
  rw [mem_sendInterest hmem]
  exact ⟨h.face_ne, h.2⟩

/-- A new Interest goes to the cheapest eligible next hop. -/
theorem obeys_new (hsorted : ByCost nexthops) : Obeys env faceIds P inFace now nexthops p .new := by
  unfold Obeys afterReceiveInterest
  rcases hfind : nexthops.find? (isEligible env faceIds P (faceIds inFace) false 0) with _ | n
  · have hnone : ∀ n ∈ nexthops, ¬ Eligible env faceIds P inFace n := fun n hn hok =>
      find?_eq_none.mp hfind n hn (isEligible_iff.mpr hok)
    exact ⟨_, rfl, by simp, .inr ⟨hnone, rfl⟩⟩
  · have hcheapest := cheapest_of_find? hsorted (fun _ => isEligible_iff) hfind
    exact ⟨_, rfl, hcheapest.ok.send_ok, .inl ⟨n, hcheapest, rfl⟩⟩

/-- A suppressed Interest goes nowhere. -/
theorem obeys_suppress : Obeys env faceIds P inFace now nexthops p .suppress :=
  ⟨[], rfl, by simp, rfl⟩

/-- A next hop that was used has an out-record. -/
theorem exists_renewedAt
    (hused : ∀ n ∈ nexthops, Eligible env faceIds P inFace n → Used P now n.face) :
    ∀ n ∈ nexthops, Eligible env faceIds P inFace n → ∃ t, RenewedAt P n t := by
  intro n hn hok
  obtain ⟨r, hr, -⟩ := hused n hn hok
  exact ⟨r.lastRenewed, r, hr, rfl⟩

/-- A retransmission is as it should be unless all records are at the greatest time. -/
theorem obeys_forward_iff (hsorted : ByCost nexthops) :
    Obeys env faceIds P inFace now nexthops p .forward ↔
      ¬ OnlyAtMax env faceIds P inFace now nexthops := by
  unfold Obeys afterReceiveInterest
  rcases hfind : nexthops.find? (isEligible env faceIds P (faceIds inFace) true now) with _ | n
  · have hused : ∀ n ∈ nexthops, Eligible env faceIds P inFace n → Used P now n.face := by
      grind [isEligible_unused_iff]
    obtain ⟨result, hresult, hcases⟩ := findLoop_spec (exists_renewedAt hused) none timePointMax
    simp only [findEligibleNextHopWithEarliestOutRecord, hresult, Option.map_some]
    rcases hcases with ⟨rfl, hmax⟩ | ⟨n, t, rfl, ht, hearliest⟩
    · -- nothing is found: there is nothing to be found, or the times are too late
      constructor
      · rintro ⟨acts, hacts, -, hchooses⟩ ⟨⟨n, hn, hok⟩, -⟩
        obtain rfl := Option.some.inj hacts
        rcases hchooses with ⟨n, -, hacts⟩ | ⟨-, ⟨n, t, -, hacts⟩ | ⟨hnone, -⟩⟩ <;> grind
      · intro hnot
        refine ⟨[], rfl, by simp, .inr ⟨hused, .inr ⟨fun n hn hok => hnot ⟨⟨n, hn, hok⟩, ?_⟩, rfl⟩⟩⟩
        exact fun n hn hok => ⟨hused n hn hok, hmax n hn hok⟩
    · refine iff_of_true ⟨_, rfl, hearliest.ok.send_ok,
        .inr ⟨hused, .inl ⟨n, t, hearliest, rfl⟩⟩⟩ ?_
      rintro ⟨-, hall⟩
      have hle := (hall n hearliest.mem hearliest.ok).2 t hearliest.renewed
      omega
  · have hcheapest := cheapest_of_find? hsorted (fun _ => isEligible_unused_iff) hfind
    refine iff_of_true ⟨_, rfl, hcheapest.ok.1.send_ok, .inl ⟨n, hcheapest, rfl⟩⟩ ?_
    rintro ⟨-, hall⟩
    exact hcheapest.ok.2 (hall n hcheapest.mem hcheapest.ok.1).1

/-! ### The times of the out-records -/

/-- The out-records were renewed at or before a time, and their expiry is a time point.
`FaceRecord::update` sets the first to the reading of the clock and computes the second. -/
def RenewedBy (P : Pit.Entry) (now : ℤ) : Prop :=
  ∀ r ∈ P.outRecords, r.lastRenewed ≤ now ∧ r.expiry ≤ timePointMax

/-- The records stay so while time passes. -/
theorem RenewedBy.mono {later : ℤ} (h : RenewedBy P now) (hle : now ≤ later) :
    RenewedBy P later :=
  fun r hr => ⟨(h r hr).1.trans hle, (h r hr).2⟩

/-- The computed expiry is a time point. -/
theorem expiryOf_le_timePointMax (now lifetime : ℤ) :
    Pit.expiryOf now lifetime ≤ timePointMax := by
  have hlt := Int.bmod_lt (x := now + wrap64 ((if lifetime < 0 then 4000 else lifetime) * 1000000))
    (m := 2 ^ 64) (by decide)
  unfold Pit.expiryOf wrap64 timePointMax at *
  omega

/-- Sending an Interest keeps the times in order. -/
theorem RenewedBy.insertOrUpdateOutRecord (h : RenewedBy P now) (face : FaceRef) (i : Interest)
    (nonce : UInt32) : RenewedBy (P.insertOrUpdateOutRecord face i nonce now) now := by
  intro r hr
  unfold Pit.Entry.insertOrUpdateOutRecord at hr
  dsimp only at hr
  split at hr
  · rcases mem_cons.mp hr with rfl | hr
    · exact ⟨le_rfl, expiryOf_le_timePointMax ..⟩
    · exact h r hr
  · obtain ⟨m, hm⟩ := mem_iff_getElem?.mp hr
    rw [getElem?_modify] at hm
    obtain ⟨old, hold, rfl⟩ := Option.map_eq_some_iff.mp hm
    split
    · exact ⟨le_rfl, expiryOf_le_timePointMax ..⟩
    · exact h old (mem_of_getElem? hold)

/-- Removing an out-record keeps the times in order. -/
theorem RenewedBy.deleteOutRecord (h : RenewedBy P now) (face : FaceRef) :
    RenewedBy (P.deleteOutRecord face) now :=
  fun r hr => h r (mem_of_mem_eraseP hr)

/-- An unexpired out-record was renewed before the end of time. -/
theorem RenewedBy.not_onlyAtMax (h : RenewedBy P now) :
    ¬ OnlyAtMax env faceIds P inFace now nexthops := by
  rintro ⟨⟨n, hn, hok⟩, hall⟩
  obtain ⟨⟨r, hr, hunexpired⟩, hmax⟩ := hall n hn hok
  have htimes := h r (mem_of_find?_eq_some hr)
  have hle := hmax r.lastRenewed ⟨r, hr, rfl⟩
  omega

variable (env faceIds inFace p) in
/-- The strategy does what it should for every decision. -/
theorem obeys_of_renewedBy (hsorted : ByCost nexthops) (hrenewed : RenewedBy P now)
    (decision : RetxDecision) : Obeys env faceIds P inFace now nexthops p decision := by
  rcases decision with _ | _ | _
  · exact obeys_new hsorted
  · exact (obeys_forward_iff hsorted).mpr hrenewed.not_onlyAtMax
  · exact obeys_suppress

/-- An entry for `/A` with a downstream and an upstream that was renewed at 5. -/
def retransmitted : Pit.Entry where
  interest := Pit.plainInterest [.generic [0x41]]
  inRecords := [⟨1, 7, 0, 4, Pit.plainInterest [.generic [0x41]]⟩]
  outRecords := [⟨2, 7, 5, 4000000005, none⟩]
  nameTreeEntry := some 0
  unsatisfyTimer := none
  stragglerTimer := none

/-- A retransmission with one next hop. -/
theorem obeys_of_renewedBy_retransmitted :
    Obeys plainEnv id retransmitted 1 100 [⟨2, 10⟩] 0 .forward :=
  obeys_of_renewedBy plainEnv id 1 0 (by decide)
    (by intro r hr; rw [mem_singleton.mp hr]; decide) .forward

/-! ### Incoming Nacks -/

/-- One out-record has no Nack, it is still pending, and its face is a downstream too. -/
def Bidirectional (P : Pit.Entry) (now : ℤ) : Prop :=
  ∃ r, notNacked P = [r] ∧ (P.getInRecord r.face).isSome = true ∧ now ≤ r.expiry

/-- A Nack is among the actions. -/
def SendsNack (acts : List Action) : Prop :=
  ∃ q face reason, Action.sendNack q face reason ∈ acts

/-- The out-records without a Nack. -/
theorem mem_notNacked {r : Pit.OutRecord} :
    r ∈ notNacked P ↔ r ∈ P.outRecords ∧ r.incomingNack.isSome = false := by
  simp [notNacked]

/-- A Nack is sent while an out-record without a Nack is pending only in the bidirectional case. -/
theorem sendsNack_afterReceiveNack_iff : (SendsNack (afterReceiveNack p P) →
        ∀ r ∈ P.outRecords, now ≤ r.expiry → r.incomingNack.isSome = true) ↔
      ¬ Bidirectional P now := by
  unfold Bidirectional afterReceiveNack
  rcases hlist : notNacked P with _ | ⟨r, _ | ⟨r', rest⟩⟩
  · refine iff_of_true (fun _ r hr _ => ?_) (by simp)
    by_contra hnot
    simp_all [notNacked]
  · by_cases hin : (P.getInRecord r.face).isSome = true
    · simp only [getLast?_singleton, length_singleton, hin, and_self, if_true]
      constructor
      · rintro hsent ⟨r', heq, -, hpending⟩
        obtain rfl := singleton_injective heq
        obtain ⟨hr, hnack⟩ := mem_notNacked.mp (hlist ▸ mem_singleton_self r)
        rw [hsent ⟨p, r.face, _, mem_singleton_self _⟩ r hr hpending] at hnack
        cases hnack
      · intro hnot _ r' hr' hpending
        by_contra hnack
        have hmem : r' ∈ notNacked P := mem_notNacked.mpr ⟨hr', Bool.eq_false_iff.mpr hnack⟩
        grind
    · simp only [getLast?_singleton, length_singleton, hin]
      refine iff_of_true ?_ ?_
      · rintro ⟨q, face, reason, hmem⟩
        cases hmem
      · simp_all
  · have hlength : ¬ ((r :: r' :: rest).length = 1 ∧
        (P.getInRecord ((r :: r' :: rest).getLast (by simp)).face).isSome = true) := by simp
    rw [getLast?_eq_some_getLast (by simp)]
    simp only [hlength, if_false]
    refine iff_of_true ?_ ?_
    · rintro ⟨q, face, reason, hmem⟩
      cases hmem
    · rintro ⟨r'', heq, -⟩
      cases heq

end BestRoute

end IcnDemo
