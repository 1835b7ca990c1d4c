import IcnDemo.DeadNonceList
import IcnDemo.Pit.Match

/-!
# The forwarding pipelines

The state of the forwarder and its pipelines, one definition for each function of
`daemon/fw/forwarder.cpp`.  Three parts of the daemon are open here.

* The content store is any store with a `find` and an `insert`.
* A strategy is whatever sequence of actions a callback performs; an action may name any PIT
  entry object, stored or not, since strategies may keep pointers to them.  The pipelines are given
  what a callback does, which is to perform its actions unless something else is said.
* The scheduler is the list of pending PIT timers; any of them may fire at any time.

Packets leave through `log`, which also records what enters the content store.  A pipeline ends
normally, by an exception that the link service catches, or by a failed assertion, and the state
at that point is kept in all three cases.
-/

namespace IcnDemo

/-- `ndn::nfd::FaceScope`. -/
inductive FaceScope where
  | nonLocal
  | local
deriving DecidableEq, Repr

/-- `ndn::nfd::LinkType`. -/
inductive LinkType where
  | pointToPoint
  | multiAccess
deriving DecidableEq, Repr

namespace Forwarder

/-- What the forwarder is connected to: the fixed properties of the face objects, and a content
store. -/
structure Env (σ : Type) where
  scope : FaceRef → FaceScope
  linkType : FaceRef → LinkType
  csFind : σ → Interest → σ × Option Data
  csInsert : σ → Data → Bool → σ

/-- A pending timer event with the arguments bound to it. -/
inductive Timer where
  | unsatisfy (p : Pit.EntryId)
  | straggler (p : Pit.EntryId) (isSatisfied : Bool) (dataFreshnessPeriod : ℤ)
deriving DecidableEq, Repr

/-- The PIT entry a timer refers to. -/
def Timer.entry : Timer → Pit.EntryId
  | .unsatisfy p => p
  | .straggler p _ _ => p

/-- What the forwarder does to the outside.  An outgoing Interest comes with its PIT entry as it
was at that moment. -/
inductive Output where
  | sendInterest (outFace : FaceRef) (entry : Pit.Entry) (i : Interest)
  | sendData (outFace : FaceRef) (d : Data)
  | sendNack (outFace : FaceRef) (i : Interest) (reason : ℕ)
  | cacheData (inFace : FaceRef) (d : Data)

/-- An action of a strategy; a new nonce comes with the number the generator returns. -/
inductive Action where
  | sendInterest (p : Pit.EntryId) (outFace : FaceRef) (newNonce : Option UInt32)
  | rejectPendingInterest (p : Pit.EntryId)
  | sendNack (p : Pit.EntryId) (outFace : FaceRef) (reason : ℕ)
deriving DecidableEq, Repr

/-- The PIT entry an action is about. -/
def Action.entry : Action → Pit.EntryId
  | .sendInterest p _ _ => p
  | .rejectPendingInterest p => p
  | .sendNack p _ _ => p

/-- The prefix of host-local names. -/
def localhostName : Name :=
  [.generic [0x6c, 0x6f, 0x63, 0x61, 0x6c, 0x68, 0x6f, 0x73, 0x74]]

/-- The prefix of names that travel one hop. -/
def localhopName : Name :=
  [.generic [0x6c, 0x6f, 0x63, 0x61, 0x6c, 0x68, 0x6f, 0x70]]

end Forwarder

/-- The state of a `Forwarder`.  Identifier 0 is `INVALID_FACEID`. -/
structure Forwarder (σ : Type) where
  pit : Pit
  deadNonceList : DeadNonceList
  cs : σ
  faceIds : FaceRef → ℕ
  lastFaceId : ℕ
  events : List (ℕ × Forwarder.Timer)
  nextEvent : ℕ
  log : List Forwarder.Output

namespace Forwarder

variable {σ : Type}

/-- How a pipeline ended. -/
inductive Signal where
  | ok
  | thrown
  | aborted
deriving DecidableEq, Repr

/-- The state in which a pipeline ended, and how. -/
structure Result (σ : Type) where
  state : Forwarder σ
  signal : Signal

/-- Continue after a normal end. -/
def Result.andThen (r : Result σ) (f : Forwarder σ → Result σ) : Result σ :=
  match r.signal with
  | .ok => f r.state
  | _ => r

/-- The forwarder after construction: empty tables, 1024 buckets, identifiers up to 255
reserved. -/
def create (cs : σ) : Forwarder σ where
  pit := Pit.create 1024
  deadNonceList := DeadNonceList.create
  cs := cs
  faceIds := fun _ => 0
  lastFaceId := 255
  events := []
  nextEvent := 0
  log := []

variable (s : Forwarder σ) (p : Pit.EntryId)

/-- Record an output. -/
def emit (out : Output) : Forwarder σ :=
  { s with log := s.log ++ [out] }

/-- Change a PIT entry in place. -/
def modifyEntry (f : Pit.Entry → Pit.Entry) : Forwarder σ :=
  { s with pit := s.pit.modify p f }

/-! ### Timers -/

/-- `scheduler::cancel`; a null or spent event id is ignored. -/
def cancel (id : Option ℕ) : Forwarder σ :=
  { s with events := s.events.filter fun e => some e.1 ≠ id }

/-- `Forwarder::setUnsatisfyTimer`. -/
def setUnsatisfyTimer : Forwarder σ :=
  let s := s.cancel ((s.pit.entries p).bind Pit.Entry.unsatisfyTimer)
  { s.modifyEntry p fun P => { P with unsatisfyTimer := some s.nextEvent } with
    events := (s.nextEvent, .unsatisfy p) :: s.events
    nextEvent := s.nextEvent + 1 }

/-- `Forwarder::setStragglerTimer`. -/
def setStragglerTimer (isSatisfied : Bool) (dataFreshnessPeriod : ℤ) : Forwarder σ :=
  let s := s.cancel ((s.pit.entries p).bind Pit.Entry.stragglerTimer)
  { s.modifyEntry p fun P => { P with stragglerTimer := some s.nextEvent } with
    events := (s.nextEvent, .straggler p isSatisfied dataFreshnessPeriod) :: s.events
    nextEvent := s.nextEvent + 1 }

/-- `Forwarder::cancelUnsatisfyAndStragglerTimer`. -/
def cancelTimers : Forwarder σ :=
  let s := s.cancel ((s.pit.entries p).bind Pit.Entry.unsatisfyTimer)
  s.cancel ((s.pit.entries p).bind Pit.Entry.stragglerTimer)

/-! ### Outgoing packets -/

section Pipelines

variable (env : Env σ)

/-- `isViolatingLocalhost` of the pipelines. -/
def isViolatingLocalhost (face : FaceRef) (n : Name) : Bool :=
  env.scope face == .nonLocal && Name.isPrefixOf localhostName n

variable (s : Forwarder σ) (inFace : FaceRef) (d : Data) (p : Pit.EntryId) (P : Pit.Entry)
  (outFace : FaceRef) (i : Interest) (now : ℤ)

/-- `pit::Entry::hasLocalInRecord`. -/
def hasLocalInRecord : Bool :=
  P.inRecords.any fun r => env.scope r.face == .local

/-- `pit::Entry::violatesScope`. -/
def violatesScope (face : FaceRef) : Bool :=
  (env.scope face == .nonLocal && Name.isPrefixOf localhostName P.interest.name) ||
    (env.scope face == .nonLocal && Name.isPrefixOf localhopName P.interest.name &&
      !hasLocalInRecord env P)

/-- `compare_pickInterest`: is `b` preferred over `a`? -/
def comparePickInterest (a b : Pit.InRecord) : Bool :=
  if a.face ≠ outFace ∧ b.face = outFace then false
  else if a.face = outFace ∧ b.face ≠ outFace then true
  else decide (b.lastRenewed < a.lastRenewed)

/-- `std::max_element` over the in-records. -/
def pickInRecord : List Pit.InRecord → Option Pit.InRecord
  | [] => none
  | r :: rs => some (rs.foldl (fun a b => if comparePickInterest outFace a b then b else a) r)

/-- The last part of `onOutgoingInterest`: the out-record, then the packet. -/
def sendPicked : Result σ :=
  match i.getNonce with
  | none => ⟨s, .thrown⟩
  | some nonce =>
      let s := s.modifyEntry p fun P => P.insertOrUpdateOutRecord outFace i nonce now
      ⟨s.emit (.sendInterest outFace P i), .ok⟩

/-- `Forwarder::onOutgoingInterest`. -/
def onOutgoingInterest (newNonce : Option UInt32) (now : ℤ) : Result σ :=
  match s.pit.entries p with
  | none => ⟨s, .ok⟩
  | some P =>
      if s.faceIds outFace = 0 then ⟨s, .ok⟩
      else if violatesScope env P outFace then ⟨s, .ok⟩
      else
        match pickInRecord outFace P.inRecords with
        | none => ⟨s, .aborted⟩
        | some r =>
            match newNonce with
            | none => s.sendPicked p P outFace r.interest now
            | some nonce => s.sendPicked p P outFace (r.interest.setNonce nonce) now

/-- `Forwarder::onOutgoingData`. -/
def onOutgoingData : Forwarder σ :=
  if s.faceIds outFace = 0 then s
  else if isViolatingLocalhost env outFace d.name then s
  else s.emit (.sendData outFace d)

/-- `Forwarder::onOutgoingNack`. -/
def onOutgoingNack (reason : ℕ) : Forwarder σ :=
  match s.pit.entries p with
  | none => s
  | some P =>
      if s.faceIds outFace = 0 then s
      else
        match P.getInRecord outFace with
        | none => s
        | some r =>
            if env.linkType outFace = .multiAccess then s
            else
              (s.modifyEntry p fun P => P.deleteInRecord outFace).emit
                (.sendNack outFace r.interest reason)

/-- `Forwarder::onInterestReject`. -/
def onInterestReject : Forwarder σ :=
  match s.pit.entries p with
  | none => s
  | some P =>
      if P.hasUnexpiredOutRecords now then s
      else (s.cancelTimers p).setStragglerTimer p false (-1)

/-! ### Strategies -/

/-- One action of a strategy. -/
def act (s : Forwarder σ) : Action → Result σ
  | .sendInterest p outFace newNonce => onOutgoingInterest env s p outFace newNonce now
  | .rejectPendingInterest p => ⟨s.onInterestReject p now, .ok⟩
  | .sendNack p outFace reason => ⟨onOutgoingNack env s p outFace reason, .ok⟩

/-- A callback of a strategy: its actions in order. -/
def dispatchToStrategy (now : ℤ) (s : Forwarder σ) : List Action → Result σ
  | [] => ⟨s, .ok⟩
  | a :: acts => (act env now s a).andThen fun s => dispatchToStrategy now s acts

/-- The triggers of a strategy, with their arguments; the last is a timer of the strategy itself. -/
inductive Trigger where
  | afterReceiveInterest (inFace : FaceRef) (i : Interest) (p : Pit.EntryId)
  | beforeSatisfyInterest (p : Pit.EntryId) (inFace : FaceRef) (d : Data)
  | beforeExpirePendingInterest (p : Pit.EntryId)
  | afterReceiveNack (inFace : FaceRef) (i : Interest) (reason : ℕ) (p : Pit.EntryId)
  | timer

end Pipelines

/-- What the pipelines run in: an environment, and what the callback of a trigger does when it
chooses some actions. -/
structure Daemon (σ : Type) extends Env σ where
  callback : Trigger → ℤ → Forwarder σ → List Action → Result σ

/-- The daemon whose callbacks perform their actions. -/
@[reducible] def Env.daemon (env : Env σ) : Daemon σ where
  toEnv := env
  callback := fun _ now s acts => dispatchToStrategy env now s acts

instance : Coe (Env σ) (Daemon σ) :=
  ⟨Env.daemon⟩

section Pipelines

variable (D : Daemon σ) (env : Env σ) (s : Forwarder σ) (inFace : FaceRef) (d : Data)
  (p : Pit.EntryId) (P : Pit.Entry) (i : Interest) (now : ℤ)

/-! ### Incoming Interests -/

/-- Is the nonce known from the PIT entry or from the dead nonce list? -/
def hasDuplicateNonce (nonce : UInt32) (inFace : FaceRef) : Bool :=
  P.findNonce nonce inFace != 0 || s.deadNonceList.has i.name nonce

/-- `Forwarder::onContentStoreMiss`; the FIB lookup only serves the strategy. -/
def onContentStoreMiss (nonce : UInt32) (now : ℤ) (acts : List Action) : Result σ :=
  let s := s.modifyEntry p fun P => P.insertOrUpdateInRecord inFace i nonce now
  let s := s.setUnsatisfyTimer p
  D.callback (.afterReceiveInterest inFace i p) now s acts

/-- `Forwarder::onContentStoreHit`. -/
def onContentStoreHit (d : Data) : Forwarder σ :=
  onOutgoingData env (s.setStragglerTimer p true d.freshnessPeriod) d inFace

/-- `Cs::find` throws when the successor of a non-empty name does not exist. -/
def csThrows : Bool :=
  !i.name.isEmpty && i.name.getSuccessor.isNone

/-- The rest of `onIncomingInterest` once the timers are cancelled. -/
def processInterest (nonce : UInt32) (now : ℤ) (acts : List Action) : Result σ :=
  if P.inRecords.isEmpty then
    if csThrows i then ⟨s, .thrown⟩
    else
      let r := D.csFind s.cs i
      let s := { s with cs := r.1 }
      match r.2 with
      | some d => ⟨onContentStoreHit D.toEnv s inFace p d, .ok⟩
      | none => onContentStoreMiss D s inFace p i nonce now acts
  else onContentStoreMiss D s inFace p i nonce now acts

/-- `Forwarder::onIncomingInterest`.  The PIT entry exists before the nonce is read. -/
def onIncomingInterest (acts : List Action) : Result σ :=
  if isViolatingLocalhost D.toEnv inFace i.name then ⟨s, .ok⟩
  else
    let r := s.pit.insert i
    let s := { s with pit := r.1 }
    match r.2.1.bind fun p => (s.pit.entries p).map fun P => (p, P) with
    -- an insertion always returns an entry
    | none => ⟨s, .ok⟩
    | some (p, P) =>
        match i.getNonce with
        | none => ⟨s, .thrown⟩
        | some nonce =>
            if s.hasDuplicateNonce P i nonce inFace then ⟨s, .ok⟩
            else processInterest D (s.cancelTimers p) inFace p P i nonce now acts

/-! ### Incoming Data -/

/-- Does the end of this PIT entry need the dead nonce list?  Data without a freshness period
never becomes stale.  The milliseconds are compared as nanoseconds, in 64 bits. -/
def needDnl (isSatisfied : Bool) (dataFreshnessPeriod : ℤ) : Bool :=
  if isSatisfied then
    P.interest.selectors.mustBeFresh && decide (0 ≤ dataFreshnessPeriod) &&
      decide (wrap64 (dataFreshnessPeriod * 1000000) < DeadNonceList.lifetime)
  else true

/-- `Forwarder::insertDeadNonceList`. -/
def insertDeadNonceList (isSatisfied : Bool)
    (dataFreshnessPeriod : ℤ) (upstream : Option FaceRef) : Forwarder σ :=
  if !needDnl P isSatisfied dataFreshnessPeriod then s
  else
    let records := match upstream with
      | none => P.outRecords
      | some face => (P.getOutRecord face).toList
    { s with
      deadNonceList := records.foldl (fun dnl r => dnl.add P.interest.name r.lastNonce)
        s.deadNonceList }

/-- `Cs::insert`; a Data tagged as not cacheable is left out. -/
def csInsert (isUnsolicited : Bool) : Forwarder σ :=
  if d.noCache then s
  else { s.emit (.cacheData inFace d) with cs := env.csInsert s.cs d isUnsolicited }

/-- `Forwarder::onDataUnsolicited`. -/
def onDataUnsolicited : Forwarder σ :=
  if env.scope inFace = .local then csInsert env s inFace d true else s

/-- The faces with an in-record that has not expired. -/
def pendingDownstreams : List FaceRef :=
  (P.inRecords.filter fun r => decide (now < r.expiry)).map Pit.InRecord.face

/-- What happens to a matching PIT entry after the satisfy callback. -/
def markSatisfied : Forwarder σ :=
  match s.pit.entries p with
  | none => s
  | some P =>
      let s := s.insertDeadNonceList P true d.freshnessPeriod (some inFace)
      let s := s.modifyEntry p fun P => P.deleteInRecords.deleteOutRecord inFace
      s.setStragglerTimer p true d.freshnessPeriod

/-- The loop over the matching PIT entries; it gathers the pending downstreams. -/
def satisfyEntries (inFace : FaceRef) (d : Data) (now : ℤ) (acts : Pit.EntryId → List Action) :
    List Pit.EntryId → Forwarder σ → List FaceRef → Result σ × List FaceRef
  | [], s, pending => (⟨s, .ok⟩, pending)
  | p :: ps, s, pending =>
      match s.pit.entries p with
      | none => satisfyEntries inFace d now acts ps s pending
      | some P =>
          let r := D.callback (.beforeSatisfyInterest p inFace d) now (s.cancelTimers p) (acts p)
          let pending := pending ++ pendingDownstreams P now
          match r.signal with
          | .ok => satisfyEntries inFace d now acts ps (r.state.markSatisfied inFace d p) pending
          | _ => (r, pending)

/-- `Forwarder::onIncomingData`.  The downstreams are a set, so each face occurs once. -/
def onIncomingData (acts : Pit.EntryId → List Action) : Result σ :=
  if isViolatingLocalhost D.toEnv inFace d.name then ⟨s, .ok⟩
  else
    let pitMatches := s.pit.findAllDataMatches d
    if pitMatches.isEmpty then ⟨onDataUnsolicited D.toEnv s inFace d, .ok⟩
    else
      let s := csInsert D.toEnv s inFace d false
      let r := satisfyEntries D inFace d now acts pitMatches s []
      r.1.andThen fun s =>
        ⟨(r.2.dedup.filter (· ≠ inFace)).foldl (fun s g => onOutgoingData D.toEnv s d g) s, .ok⟩

/-! ### Incoming Nacks and timers -/

/-- Record a Nack on the out-record of a face. -/
def setIncomingNack (face : FaceRef) (reason : ℕ) : Pit.Entry :=
  match P.outRecords.findIdx? fun r => r.face == face with
  | none => P
  | some k =>
      { P with outRecords := P.outRecords.modify k fun r => { r with incomingNack := some reason } }

/-- `Forwarder::onIncomingNack`. -/
def onIncomingNack (reason : ℕ) (now : ℤ) (acts : List Action) : Result σ :=
  if D.linkType inFace = .multiAccess then ⟨s, .ok⟩
  else
    let r := s.pit.find i
    let s := { s with pit := r.1 }
    match r.2.bind fun p => (s.pit.entries p).map fun P => (p, P) with
    | none => ⟨s, .ok⟩
    | some (p, P) =>
        match P.getOutRecord inFace with
        | none => ⟨s, .ok⟩
        | some outRecord =>
            match i.getNonce with
            | none => ⟨s, .thrown⟩
            | some nonce =>
                if nonce ≠ outRecord.lastNonce then ⟨s, .ok⟩
                else
                  D.callback (.afterReceiveNack inFace i reason p) now
                    (s.modifyEntry p fun P => setIncomingNack P inFace reason) acts

/-- `Forwarder::onInterestFinalize`; erasing an entry that is not stored fails the assertion of
`Pit::erase`. -/
def onInterestFinalize (isSatisfied : Bool) (dataFreshnessPeriod : ℤ) : Result σ :=
  match s.pit.entries p with
  | none => ⟨s, .ok⟩
  | some P =>
      let s := (s.insertDeadNonceList P isSatisfied dataFreshnessPeriod none).cancelTimers p
      match s.pit.erase p with
      | none => ⟨s, .aborted⟩
      | some pit => ⟨{ s with pit := pit }, .ok⟩

/-- `Forwarder::onInterestUnsatisfied`. -/
def onInterestUnsatisfied (acts : List Action) : Result σ :=
  (D.callback (.beforeExpirePendingInterest p) now s acts).andThen fun s =>
    s.onInterestFinalize p false (-1)

/-- A timer fires: the scheduler takes it out of its queue first. -/
def onTimer (id : ℕ) (now : ℤ) (acts : List Action) : Result σ :=
  match s.events.find? fun e => e.1 == id with
  | none => ⟨s, .ok⟩
  | some (_, .unsatisfy p) => onInterestUnsatisfied D (s.cancel (some id)) p now acts
  | some (_, .straggler p isSatisfied dataFreshnessPeriod) =>
      (s.cancel (some id)).onInterestFinalize p isSatisfied dataFreshnessPeriod

end Pipelines

/-! ### Runs -/

/-- What the other tables do to the name tree. -/
inductive TableOp where
  | lookup (n : Name)
  | eraseEntryIfEmpty (e : NameTree.EntryId)
  | attach (e : NameTree.EntryId) (fibEntry measurementsEntry strategyChoiceEntry : Option ℕ)

/-- The effect of the other tables on the name tree. -/
def TableOp.apply (t : NameTree) : TableOp → NameTree
  | .lookup n => (t.lookup n).1
  | .eraseEntryIfEmpty e => (t.eraseEntryIfEmpty e).1
  | .attach e fib measurements strategyChoice =>
      t.modifyAttached e fun a => ⟨fib, a.pitEntries, measurements, strategyChoice⟩

/-- The events of a run.  Times are read once per event. -/
inductive Event where
  | interest (inFace : FaceRef) (i : Interest) (now : ℤ) (acts : List Action)
  | data (inFace : FaceRef) (d : Data) (now : ℤ) (acts : Pit.EntryId → List Action)
  | nack (inFace : FaceRef) (i : Interest) (reason : ℕ) (now : ℤ) (acts : List Action)
  | timer (id : ℕ) (now : ℤ) (acts : List Action)
  | strategy (now : ℤ) (acts : List Action)
  | addFace (face : FaceRef)
  | removeFace (face : FaceRef)
  | markDeadNonceList
  | adjustDeadNonceList
  | table (op : TableOp)

/-- One event. -/
def step (D : Daemon σ) (s : Forwarder σ) : Event → Result σ
  | .interest inFace i now acts => onIncomingInterest D s inFace i now acts
  | .data inFace d now acts => onIncomingData D s inFace d now acts
  | .nack inFace i reason now acts => onIncomingNack D s inFace i reason now acts
  | .timer id now acts => onTimer D s id now acts
  | .strategy now acts => D.callback .timer now s acts
  | .addFace face =>
      if s.faceIds face ≠ 0 then ⟨s, .ok⟩
      else
        ⟨{ s with
            faceIds := Function.update s.faceIds face (s.lastFaceId + 1)
            lastFaceId := s.lastFaceId + 1 }, .ok⟩
  | .removeFace face => ⟨{ s with faceIds := Function.update s.faceIds face 0 }, .ok⟩
  | .markDeadNonceList => ⟨{ s with deadNonceList := s.deadNonceList.mark }, .ok⟩
  | .adjustDeadNonceList => ⟨{ s with deadNonceList := s.deadNonceList.adjustCapacity }, .ok⟩
  | .table op => ⟨{ s with pit := { s.pit with nameTree := op.apply s.pit.nameTree } }, .ok⟩

/-- A run: an exception ends one event, a failed assertion ends the run. -/
def run (D : Daemon σ) (s : Forwarder σ) : List Event → Result σ
  | [] => ⟨s, .ok⟩
  | ev :: evs =>
      let r := step D s ev
      if r.signal = .aborted then r else run D r.state evs

end Forwarder

end IcnDemo
