import IcnDemo.Rib.Collect

/-!
# The queue of updates and the commands in flight

`Rib::beginApplyUpdate` and `Rib::beginRemoveFace` queue batches of one update each.  A batch is
taken from the queue when no other is in progress; its FIB commands are sent, first those for the
face of the batch and then the others, and their responses arrive later in any order.  Whether a
batch is complete is read off two lists that all batches share.

A response is bound to the update and to the callbacks of its own batch, but it is handled with the
lists and with the face of the batch that was computed last.  Therefore a second response with code
410 for the face of one batch completes this batch again and lets the queue advance while the next
batch is still in progress.  All other codes but timeouts, and the eleventh timeout, throw, so that
the batch is never completed.

In runs without such responses (`RunOk`) the batches are completed in the order of the queue, each
exactly once (`Orderly`), and as long as one is not complete there is a command to be answered.
Every response makes the triple `work` smaller.

What the table itself does for a batch may be undefined (`Fault.undefined`); a run ends there.
-/

namespace IcnDemo

open List

namespace FibUpdater

/-! ### The lists of a computed batch -/

/-- The two lists are divided by the face of the batch, and no list has two updates for the same
place. -/
structure Divided (u : FibUpdater) (f : ℕ) : Prop where
  batchFaceId_eq : u.batchFaceId = f
  batch_face : ∀ v ∈ u.updatesForBatchFaceId, v.faceId = f
  nonBatch_face : ∀ v ∈ u.updatesForNonBatchFaceId, v.faceId ≠ f
  batch_distinct : u.updatesForBatchFaceId.Pairwise fun v w => samePlace v w = false
  nonBatch_distinct : u.updatesForNonBatchFaceId.Pairwise fun v w => samePlace v w = false

variable {u : FibUpdater} {f : ℕ}

/-- The updater begins without updates. -/
theorem divided_start (f : ℕ) : Divided (start f) f := by
  constructor <;> simp [start]

/-- Being at the same place is symmetric. -/
theorem samePlace_comm (v w : FibUpdate) : samePlace v w = samePlace w v := by
  grind [samePlace, Name.equals_iff]

/-- The place of a FIB command. -/
def place (v : FibUpdate) : Name × ℕ :=
  (v.name, v.faceId)

/-- Give a command the action and the cost of another one. -/
def overwrite (v w : FibUpdate) : FibUpdate :=
  { w with action := v.action, cost := v.cost }

/-- Overwriting the first command for a place keeps the places. -/
theorem map_place_replaceFirst (v : FibUpdate) (vs : List FibUpdate) :
    (Rib.replaceFirst (samePlace v) (overwrite v) vs).map place = vs.map place := by
  induction vs with
  | nil => rfl
  | cons w ws ih =>
    unfold Rib.replaceFirst
    cases samePlace v w with
    | true => rfl
    | false => simpa using ih

/-- A command is merged into the first one for its place, or put at the end. -/
theorem mergeUpdate_eq (vs : List FibUpdate) (v : FibUpdate) :
    mergeUpdate vs v = if vs.any (samePlace v) then
      Rib.replaceFirst (samePlace v) (overwrite v) vs else vs ++ [v] := rfl

/-- The updates stay at distinct places. -/
theorem pairwise_mergeUpdate {vs : List FibUpdate} (v : FibUpdate)
    (h : vs.Pairwise fun v w => samePlace v w = false) :
    (mergeUpdate vs v).Pairwise fun v w => samePlace v w = false := by
  have hplaces : ∀ ws : List FibUpdate, (ws.Pairwise fun v w => samePlace v w = false) ↔
      (ws.map place).Pairwise fun p q =>
        (Name.equals p.1 q.1 && p.2 == q.2) = false := by
    intro ws
    rw [pairwise_map]
    rfl
  rw [mergeUpdate_eq]
  by_cases hany : vs.any (samePlace v) = true
  · rw [if_pos hany, hplaces, map_place_replaceFirst, ← hplaces]
    exact h
  · grind [samePlace_comm]

/-- The faces of the updates after a merge. -/
theorem faceId_of_mem_mergeUpdate {vs : List FibUpdate} {v w : FibUpdate}
    (hw : w ∈ mergeUpdate vs v) : w.faceId = v.faceId ∨ ∃ x ∈ vs, w.faceId = x.faceId := by
  rw [mergeUpdate_eq] at hw
  grind [mem_map_of_mem, place, map_place_replaceFirst]

/-- A new update goes to the list of its face. -/
theorem Divided.addFibUpdate (h : Divided u f) (v : FibUpdate) : Divided (u.addFibUpdate v) f := by
  unfold FibUpdater.addFibUpdate
  rw [h.batchFaceId_eq]
  by_cases hv : v.faceId = f
  · rw [if_pos hv]
    refine ⟨rfl, fun w hw => ?_, h.nonBatch_face, pairwise_mergeUpdate v
      h.batch_distinct, h.nonBatch_distinct⟩
    grind [faceId_of_mem_mergeUpdate, h.batch_face]
  · rw [if_neg hv]
    refine ⟨rfl, h.batch_face, fun w hw => ?_, h.batch_distinct,
      pairwise_mergeUpdate v h.nonBatch_distinct⟩
    grind [faceId_of_mem_mergeUpdate, h.nonBatch_face]

/-- Whatever is computed, the updates stay divided by face. -/
theorem closed_divided (f : ℕ) : Closed fun u => Divided u f where
  addFibUpdate h v := h.addFibUpdate v
  addInheritedRoute h _ _ := ⟨h.1, h.2, h.3, h.4, h.5⟩
  removeInheritedRoute h _ _ := ⟨h.1, h.2, h.3, h.4, h.5⟩

/-- Cancelled events are not updates. -/
theorem Divided.cancel (h : Divided u f) (l : List ℕ) : Divided { u with cancelled := l } f :=
  ⟨h.1, h.2, h.3, h.4, h.5⟩

/-- The computed updates are divided by face. -/
theorem divided_computeUpdates {rib : Rib} {update : RibUpdate}
    (hu : computeUpdates rib update = some u) : Divided u update.route.faceId := by
  have hclosed := closed_divided update.route.faceId
  have hstart := divided_start update.route.faceId
  unfold computeUpdates at hu
  split at hu
  · exact hclosed.registration hstart hu
  · exact hclosed.unregistration (hstart.cancel _) hu
  · obtain ⟨v, hv, rfl⟩ := Option.map_eq_some_iff.mp hu
    have hdiv := hclosed.unregistration (hstart.cancel _) hv
    exact ⟨hdiv.1, fun _ hw => absurd hw not_mem_nil, hdiv.3, Pairwise.nil, hdiv.5⟩

end FibUpdater

open FibUpdater

/-! ### The queue and the commands -/

/-- `Rib::UpdateQueueItem`, a batch of one update; the number stands for its callbacks. -/
structure QueueItem where
  id : ℕ
  update : RibUpdate
deriving DecidableEq, Repr

/-- A command that was sent to the FIB, as it is bound into its callbacks. -/
structure FibCommand where
  item : QueueItem
  update : FibUpdate
  verb : FibAction
  nTimeouts : ℕ
deriving DecidableEq, Repr

/-- Which of the callbacks of a batch was called. -/
inductive BatchOutcome where
  | success
  | failure
deriving DecidableEq, Repr

/-- Why a run ends. -/
inductive Fault where
  /-- The table is used in an undefined way. -/
  | undefined
  /-- `FibUpdater::Error` is thrown. -/
  | nonRecoverableError
deriving DecidableEq, Repr

/-- The state of `Rib` and `FibUpdater`, and what was queued, started and completed so far. -/
structure BatchState where
  rib : Rib
  updater : FibUpdater
  updateBatches : List QueueItem
  isUpdateInProgress : Bool
  outstanding : List FibCommand
  nQueued : ℕ
  started : List ℕ
  completed : List (ℕ × BatchOutcome)

/-- `FibUpdate::operator==`. -/
def FibUpdate.equals (v w : FibUpdate) : Bool :=
  Name.equals v.name w.name && v.faceId == w.faceId && v.cost == w.cost && v.action == w.action

/-- `std::list::remove`. -/
def removeUpdate (vs : List FibUpdate) (v : FibUpdate) : List FibUpdate :=
  vs.filter fun w => !w.equals v

/-- `Rib::findRoutesWithFaceId`. -/
def Rib.findRoutesWithFaceId (rib : Rib) (faceId : ℕ) : List (Name × Route) :=
  (rib.faceMap faceId).flatMap fun n =>
    match rib.find n with
    | none => []
    | some e => (e.routes.filter fun r => r.compareFaceId faceId).map fun r => (e.name, r)

namespace BatchState

/-- Before anything is queued. -/
def create (rib : Rib) : BatchState :=
  ⟨rib, .start 0, [], false, [], 0, [], []⟩

/-- `Rib::addUpdateToQueue`. -/
def addUpdateToQueue (s : BatchState) (update : RibUpdate) : BatchState :=
  { s with
    updateBatches := s.updateBatches ++ [⟨s.nQueued, update⟩]
    nQueued := s.nQueued + 1 }

/-- `FibUpdater::sendAddNextHopUpdate`. -/
def sendAddNextHopUpdate (s : BatchState) (item : QueueItem) (update : FibUpdate)
    (nTimeouts : ℕ) : BatchState :=
  { s with outstanding := s.outstanding ++ [⟨item, update, .addNextHop, nTimeouts⟩] }

/-- `FibUpdater::sendRemoveNextHopUpdate`. -/
def sendRemoveNextHopUpdate (s : BatchState) (item : QueueItem) (update : FibUpdate)
    (nTimeouts : ℕ) : BatchState :=
  { s with outstanding := s.outstanding ++ [⟨item, update, .removeNextHop, nTimeouts⟩] }

/-- `FibUpdater::sendUpdates`. -/
def sendUpdates (item : QueueItem) : List FibUpdate → BatchState → BatchState
  | [], s => s
  | v :: vs, s => sendUpdates item vs
      (match v.action with
        | .addNextHop => s.sendAddNextHopUpdate item v 0
        | .removeNextHop => s.sendRemoveNextHopUpdate item v 0)

/-- `FibUpdater::sendUpdatesForNonBatchFaceId`. -/
def sendUpdatesForNonBatchFaceId (s : BatchState) (item : QueueItem)
    (onSuccess : BatchState → Except Fault BatchState) : Except Fault BatchState :=
  if s.updater.updatesForNonBatchFaceId.length > 0 then
    .ok (sendUpdates item s.updater.updatesForNonBatchFaceId s)
  else onSuccess s

/-- `FibUpdater::sendUpdatesForBatchFaceId`. -/
def sendUpdatesForBatchFaceId (s : BatchState) (item : QueueItem)
    (onSuccess : BatchState → Except Fault BatchState) : Except Fault BatchState :=
  if s.updater.updatesForBatchFaceId.length > 0 then
    .ok (sendUpdates item s.updater.updatesForBatchFaceId s)
  else s.sendUpdatesForNonBatchFaceId item onSuccess

/-- The success callback of a batch, before the queue is advanced. -/
def succeed (item : QueueItem) (s : BatchState) : Except Fault BatchState :=
  match s.rib.onFibUpdateSuccess item.update s.updater.inheritedRoutes with
  | none => .error .undefined
  | some rib => .ok { s with
      rib
      isUpdateInProgress := false
      completed := s.completed ++ [(item.id, .success)] }

/-- A batch is taken from the queue and its updates are computed. -/
def takeBatch (s : BatchState) (item : QueueItem) (items : List QueueItem) (u : FibUpdater) :
    BatchState :=
  { s with
    rib := { s.rib with cancelled := s.rib.cancelled ++ u.cancelled }
    updater := u
    updateBatches := items
    isUpdateInProgress := true
    started := s.started ++ [item.id] }

/-- `Rib::sendBatchFromQueue` over the rest of the queue; a batch without FIB updates is complete
at once. -/
def advance : List QueueItem → BatchState → Except Fault BatchState
  | [], s => .ok { s with updateBatches := [] }
  | item :: items, s =>
      if s.isUpdateInProgress then .ok { s with updateBatches := item :: items }
      else
        match computeUpdates s.rib item.update with
        | none => .error .undefined
        | some u =>
            (s.takeBatch item items u).sendUpdatesForBatchFaceId item fun s =>
              (s.succeed item).bind (advance items)

/-- `Rib::sendBatchFromQueue`. -/
def sendBatchFromQueue (s : BatchState) : Except Fault BatchState :=
  advance s.updateBatches s

/-- `Rib::onFibUpdateSuccess`. -/
def onFibUpdateSuccess (item : QueueItem) (s : BatchState) : Except Fault BatchState :=
  (s.succeed item).bind sendBatchFromQueue

/-- `Rib::onFibUpdateFailure`. -/
def onFibUpdateFailure (item : QueueItem) (s : BatchState) : Except Fault BatchState :=
  sendBatchFromQueue { s with
    isUpdateInProgress := false
    completed := s.completed ++ [(item.id, .failure)] }

/-- Take an update from the list of the other faces; the batch is complete with the last one. -/
def dropNonBatch (s : BatchState) (c : FibCommand) : Except Fault BatchState :=
  let s := { s with updater := { s.updater with
    updatesForNonBatchFaceId := removeUpdate s.updater.updatesForNonBatchFaceId c.update } }
  if s.updater.updatesForNonBatchFaceId.length = 0 then s.onFibUpdateSuccess c.item else .ok s

/-- `FibUpdater::onUpdateSuccess`. -/
def onUpdateSuccess (s : BatchState) (c : FibCommand) : Except Fault BatchState :=
  if c.update.faceId = s.updater.batchFaceId then
    let s := { s with updater := { s.updater with
      updatesForBatchFaceId := removeUpdate s.updater.updatesForBatchFaceId c.update } }
    if s.updater.updatesForBatchFaceId.length = 0 then
      s.sendUpdatesForNonBatchFaceId c.item (onFibUpdateSuccess c.item)
    else .ok s
  else s.dropNonBatch c

/-- `Controller::ERROR_TIMEOUT`. -/
def errorTimeout : ℕ := 10060

/-- `FibUpdater::ERROR_FACE_NOT_FOUND`. -/
def errorFaceNotFound : ℕ := 410

/-- `FibUpdater::MAX_NUM_TIMEOUTS`. -/
def maxNumTimeouts : ℕ := 10

/-- `FibUpdater::onUpdateError`.  Whatever timed out is sent again as an addition. -/
def onUpdateError (s : BatchState) (c : FibCommand) (code : ℕ) : Except Fault BatchState :=
  if code = errorTimeout ∧ c.nTimeouts < maxNumTimeouts then
    .ok (s.sendAddNextHopUpdate c.item c.update (c.nTimeouts + 1))
  else if code = errorFaceNotFound then
    if c.update.faceId = s.updater.batchFaceId then s.onFibUpdateFailure c.item
    else s.dropNonBatch c
  else .error .nonRecoverableError

/-! ### Runs -/

/-- The response to a command. -/
inductive Reply where
  | success
  | error (code : ℕ)
deriving DecidableEq, Repr

/-- What can happen: an update or the destruction of a face is announced, or one of the commands in
flight is answered. -/
inductive Event where
  | beginApplyUpdate (update : RibUpdate)
  | beginRemoveFace (faceId : ℕ)
  | response (i : ℕ) (reply : Reply)
deriving DecidableEq, Repr

/-- The updates that `Rib::beginRemoveFace` queues. -/
def queueRemovals (s : BatchState) (faceId : ℕ) : BatchState :=
  (s.rib.findRoutesWithFaceId faceId).foldl
    (fun s nameAndRoute => s.addUpdateToQueue ⟨.removeFace, nameAndRoute.1, nameAndRoute.2⟩) s

/-- One event. -/
def step (s : BatchState) : Event → Except Fault BatchState
  | .beginApplyUpdate update => (s.addUpdateToQueue update).sendBatchFromQueue
  | .beginRemoveFace faceId => (s.queueRemovals faceId).sendBatchFromQueue
  | .response i reply =>
      match s.outstanding[i]? with
      | none => .ok s
      | some c =>
          let s := { s with outstanding := s.outstanding.eraseIdx i }
          match reply with
          | .success => s.onUpdateSuccess c
          | .error code => s.onUpdateError c code

/-- A sequence of events. -/
def run (s : BatchState) : List Event → Except Fault BatchState
  | [] => .ok s
  | ev :: evs => (s.step ev).bind fun s => run s evs

/-! ### The order of the batches -/

/-- The batches are started and completed in the order of the queue. -/
structure Orderly (s : BatchState) : Prop where
  /-- What was started, followed by the queue, is what was queued. -/
  queue_order : s.started ++ s.updateBatches.map QueueItem.id = range s.nQueued
  /-- All started batches but at most one are completed, and only this one has commands in
  flight. -/
  one_in_progress : ∃ current : Option ℕ, s.started = s.completed.map Prod.fst ++ current.toList ∧
      ∀ c ∈ s.outstanding, current = some c.item.id
  /-- When every command is answered, every batch is completed. -/
  all_completed : s.outstanding = [] → s.completed.map Prod.fst = range s.nQueued

/-- The condition on a response. -/
def ReplyOk (s : BatchState) (c : FibCommand) : Reply → Prop
  | .success => True
  | .error code =>
      (code = errorTimeout ∧ c.nTimeouts < maxNumTimeouts) ∨ (code = errorFaceNotFound ∧
          (c.update.faceId = s.updater.batchFaceId → s.outstanding.length = 1))

instance (s : BatchState) (c : FibCommand) : ∀ reply, Decidable (ReplyOk s c reply)
  | .success => inferInstanceAs (Decidable True)
  | .error _ => inferInstanceAs (Decidable (_ ∨ _))

/-- The condition on an event. -/
def EventOk (s : BatchState) : Event → Prop
  | .beginApplyUpdate _ => True
  | .beginRemoveFace _ => True
  | .response i reply => ∀ c ∈ s.outstanding[i]?, ReplyOk s c reply

instance (s : BatchState) : ∀ ev, Decidable (EventOk s ev)
  | .beginApplyUpdate _ | .beginRemoveFace _ => inferInstanceAs (Decidable True)
  | .response _ _ => inferInstanceAs (Decidable (∀ c ∈ _, _))

/-- Every event of a run meets its condition. -/
def RunOk (s : BatchState) : List Event → Prop
  | [] => True
  | ev :: evs => EventOk s ev ∧
      match s.step ev with
      | .ok s' => RunOk s' evs
      | .error _ => True

instance decidableRunOk : ∀ (evs : List Event) (s : BatchState), Decidable (RunOk s evs)
  | [], _ => inferInstanceAs (Decidable True)
  | ev :: evs, s =>
      match hstep : s.step ev with
      | .ok s' =>
          have := decidableRunOk evs s'
          decidable_of_iff (EventOk s ev ∧ RunOk s' evs) (by simp only [RunOk, hstep])
      | .error _ => decidable_of_iff (EventOk s ev ∧ True) (by simp only [RunOk, hstep])

/-- A command in flight is answered, by a response that meets the condition. -/
def Answered (s' s : BatchState) : Prop :=
  ∃ i reply, i < s.outstanding.length ∧ EventOk s (.response i reply) ∧
    s.step (.response i reply) = .ok s'

/-- A run ends in a state with a property, unless the table is used in an undefined way. -/
def Ends (P : BatchState → Prop) : Except Fault BatchState → Prop
  | .ok s => P s
  | .error fault => fault = .undefined

/-! ### The invariant -/

/-- The updates whose commands are in flight. -/
def pending (u : FibUpdater) : List FibUpdate :=
  if u.updatesForBatchFaceId = [] then u.updatesForNonBatchFaceId else u.updatesForBatchFaceId

/-- A batch is in progress: its commands, and no others, are in flight. -/
structure InProgress (s : BatchState) (item : QueueItem) : Prop where
  started_eq : s.started = s.completed.map Prod.fst ++ [item.id]
  divided : s.updater.Divided item.update.route.faceId
  item_eq : ∀ c ∈ s.outstanding, c.item = item
  updates_perm : (s.outstanding.map FibCommand.update).Perm (pending s.updater)
  pending_ne : pending s.updater ≠ []

/-- What holds also before the queue is advanced. -/
structure Sound (s : BatchState) : Prop where
  queue_order : s.started ++ s.updateBatches.map QueueItem.id = range s.nQueued
  idle : s.isUpdateInProgress = false → s.outstanding = [] ∧ s.started = s.completed.map Prod.fst
  busy : s.isUpdateInProgress = true → ∃ item, InProgress s item

/-- The invariant: nothing waits while no batch is in progress. -/
structure Inv (s : BatchState) : Prop extends Sound s where
  queue_idle : s.isUpdateInProgress = false → s.updateBatches = []

/-- The batches that are not complete. -/
def batchesLeft (s : BatchState) : ℕ :=
  s.updateBatches.length + if s.isUpdateInProgress then 1 else 0

/-- How often the commands in flight can still be answered. -/
def load (cs : List FibCommand) : ℕ :=
  (cs.map fun c => maxNumTimeouts - c.nTimeouts + 1).sum

/-- What is left to do; every response makes it smaller. -/
def work (s : BatchState) : ℕ ×ₗ ℕ ×ₗ ℕ :=
  toLex (s.batchesLeft,
    toLex (if s.updater.updatesForBatchFaceId = [] then 0 else 1, load s.outstanding))

variable {s s' : BatchState} {item : QueueItem} {P Q : BatchState → Prop}

theorem Ends.mono {r : Except Fault BatchState} (h : Ends P r) (hPQ : ∀ s, P s → Q s) :
    Ends Q r := by
  cases r with
  | ok s => exact hPQ s h
  | error fault => exact h

theorem Ends.bind {r : Except Fault BatchState} {k : BatchState → Except Fault BatchState}
    (h : Ends P r) (hk : ∀ s, P s → Ends Q (k s)) : Ends Q (r.bind k) := by
  cases r with
  | ok s => exact hk s h
  | error fault => exact h

/-- The invariant holds at the beginning. -/
theorem inv_create (rib : Rib) : Inv (create rib) where
  queue_order := rfl
  idle _ := ⟨rfl, rfl⟩
  busy h := by cases h
  queue_idle _ := rfl

/-! ### Sending -/

/-- All updates are sent. -/
theorem sendUpdates_eq (item : QueueItem) (vs : List FibUpdate) (s : BatchState) :
    sendUpdates item vs s =
      { s with outstanding := s.outstanding ++ vs.map fun v => ⟨item, v, v.action, 0⟩ } := by
  induction vs generalizing s with
  | nil => simp [sendUpdates]
  | cons v vs ih => grind [sendUpdates, sendAddNextHopUpdate, sendRemoveNextHopUpdate]

/-- The invariant holds when commands are sent. -/
theorem inv_sendUpdates (hprogress : s.isUpdateInProgress = true) (hout : s.outstanding = [])
    (hstarted : s.started = s.completed.map Prod.fst ++ [item.id])
    (hdivided : s.updater.Divided item.update.route.faceId) (hne : pending s.updater ≠ [])
    (horder : s.started ++ s.updateBatches.map QueueItem.id = range s.nQueued) :
    Inv (sendUpdates item (pending s.updater) s) := by
  rw [sendUpdates_eq, hout, nil_append]
  refine ⟨⟨horder, fun h => ?_, fun _ => ⟨item, hstarted, hdivided, fun c hc => ?_, ?_, hne⟩⟩,
    fun h => ?_⟩
  · rw [hprogress] at h
    cases h
  · obtain ⟨v, -, rfl⟩ := mem_map.mp hc
    rfl
  · rw [map_map]
    exact Perm.of_eq (map_id _)
  · rw [hprogress] at h
    cases h

/-- A batch ends with success. -/
theorem ends_succeed (hout : s.outstanding = [])
    (hstarted : s.started = s.completed.map Prod.fst ++ [item.id]) :
    Ends (fun s' => s'.isUpdateInProgress = false ∧ s'.outstanding = [] ∧
      s'.started = s'.completed.map Prod.fst ∧ s'.started = s.started ∧
      s'.updateBatches = s.updateBatches ∧ s'.nQueued = s.nQueued) (succeed item s) := by
  unfold succeed
  split
  · exact rfl
  · exact ⟨rfl, hout, by simpa using hstarted, rfl, rfl, rfl⟩

/-- The queue goes on to the next batch that needs a command. -/
theorem ends_advance (items : List QueueItem) : ∀ {s : BatchState},
    s.isUpdateInProgress = false → s.outstanding = [] →
    s.started = s.completed.map Prod.fst →
    s.started ++ items.map QueueItem.id = range s.nQueued →
    Ends (fun s' => Inv s' ∧ s'.batchesLeft ≤ items.length) (advance items s) := by
  induction items with
  | nil =>
    intro s hidle hout hstarted horder
    refine ⟨⟨⟨horder, fun _ => ⟨hout, hstarted⟩, fun h => ?_⟩, fun _ => rfl⟩, ?_⟩
    all_goals grind [batchesLeft]
  | cons item items ih =>
    intro s hidle hout hstarted horder
    unfold advance
    rw [if_neg (by rw [hidle]; exact Bool.false_ne_true)]
    rcases hu : computeUpdates s.rib item.update with _ | u
    · exact rfl
    dsimp only
    generalize htaken : s.takeBatch item items u = s₁
    have hupdater : s₁.updater = u := by rw [← htaken]; rfl
    have hprogress : s₁.isUpdateInProgress = true := by rw [← htaken]; rfl
    have hout₁ : s₁.outstanding = [] := by rw [← htaken]; exact hout
    have hdivided : s₁.updater.Divided item.update.route.faceId := by
      rw [hupdater]
      exact divided_computeUpdates hu
    have hcurrent : s₁.started = s₁.completed.map Prod.fst ++ [item.id] := by
      rw [← htaken]
      simp only [takeBatch, hstarted]
    have hrest : s₁.started ++ items.map QueueItem.id = range s₁.nQueued := by
      rw [← htaken]
      simpa [takeBatch] using horder
    have hitems : s₁.updateBatches = items := by rw [← htaken]; rfl
    have hsend : pending s₁.updater ≠ [] →
        Ends (fun s' => Inv s' ∧ s'.batchesLeft ≤ (item :: items).length)
          (.ok (sendUpdates item (pending s₁.updater) s₁)) := fun hne =>
      ⟨inv_sendUpdates hprogress hout₁ hcurrent hdivided hne (hitems ▸ hrest), by
        simp [sendUpdates_eq, batchesLeft, hitems, hprogress]⟩
    unfold sendUpdatesForBatchFaceId sendUpdatesForNonBatchFaceId
    by_cases hbatch : s₁.updater.updatesForBatchFaceId = []
    · have hpending : pending s₁.updater = s₁.updater.updatesForNonBatchFaceId := if_pos hbatch
      rw [if_neg (by simp [hbatch])]
      by_cases hnon : s₁.updater.updatesForNonBatchFaceId = []
      · -- nothing to send: the batch is complete and the next one is taken
        rw [if_neg (by simp [hnon])]
        refine (ends_succeed hout₁ hcurrent).bind fun s' hs' => ?_
        obtain ⟨hidle', hout', hstarted', hsame, -, hqueued⟩ := hs'
        refine (ih hidle' hout' hstarted' ?_).mono fun s'' h => ⟨h.1, ?_⟩ <;> grind
      · grind [length_pos_iff]
    · grind [pending, length_pos_iff]

/-- The queue waits while a batch is in progress. -/
theorem advance_of_inProgress (items : List QueueItem) (h : s.isUpdateInProgress = true) :
    advance items s = .ok { s with updateBatches := items } := by
  cases items with
  | nil => rfl
  | cons item items =>
    unfold advance
    rw [if_pos h]

/-- `sendBatchFromQueue` establishes the invariant. -/
theorem Sound.ends_sendBatchFromQueue (h : Sound s) : Ends Inv s.sendBatchFromQueue := by
  unfold sendBatchFromQueue
  cases hprogress : s.isUpdateInProgress with
  | false =>
    obtain ⟨hout, hstarted⟩ := h.idle hprogress
    exact (ends_advance s.updateBatches hprogress hout hstarted h.queue_order).mono fun _ h' => h'.1
  | true =>
    rw [advance_of_inProgress s.updateBatches hprogress]
    refine ⟨h, fun hidle => ?_⟩
    simp_all

/-- A new item in the queue. -/
theorem Sound.addUpdateToQueue (h : Sound s) (update : RibUpdate) :
    Sound (s.addUpdateToQueue update) where
  queue_order := by
    simp only [BatchState.addUpdateToQueue, map_append, ← append_assoc, h.queue_order]
    exact range_succ.symm
  idle := h.idle
  busy hprogress := by
    obtain ⟨item, hitem⟩ := h.busy hprogress
    exact ⟨item, hitem.1, hitem.2, hitem.3, hitem.4, hitem.5⟩

/-- New items for a face that is gone. -/
theorem Sound.queueRemovals (h : Sound s) (faceId : ℕ) : Sound (s.queueRemovals faceId) := by
  unfold BatchState.queueRemovals
  induction s.rib.findRoutesWithFaceId faceId generalizing s with
  | nil => exact h
  | cons x xs ih => exact ih (h.addUpdateToQueue _)

/-! ### Responses -/

/-- One update is removed. -/
theorem removeUpdate_perm {vs ws : List FibUpdate} {v : FibUpdate}
    (hdistinct : vs.Pairwise fun v w => samePlace v w = false)
    (hperm : vs.Perm (v :: ws)) : (removeUpdate vs v).Perm ws := by
  have hsymm : ∀ {v w : FibUpdate}, samePlace v w = false →
      samePlace w v = false := fun h => by rw [samePlace_comm]; exact h
  have hothers := (pairwise_cons.mp ((hperm.pairwise_iff hsymm).mp hdistinct)).1
  have hself : v.equals v = true := by simp [FibUpdate.equals]
  have hkeep : ws.filter (fun w => !w.equals v) = ws := by
    grind [filter_eq_self, samePlace, FibUpdate.equals]
  grind [removeUpdate]

variable {c : FibCommand} {i : ℕ} {cs : List FibCommand}

/-- What is left to answer without one command. -/
theorem load_eraseIdx (hc : cs[i]? = some c) :
    load cs = load (cs.eraseIdx i) + (maxNumTimeouts - c.nTimeouts + 1) := by
  obtain ⟨hi, rfl⟩ := List.getElem?_eq_some_iff.mp hc
  have hperm := (List.getElem_cons_eraseIdx_perm hi).map fun c =>
    maxNumTimeouts - c.nTimeouts + 1
  unfold load
  rw [← hperm.sum_nat, map_cons, sum_cons, Nat.add_comm]

/-- A batch is completed, in either way, when no command is in flight; then the next one is
taken. -/
theorem ends_complete (hout : s.outstanding = [])
    (hstarted : s.started = s.completed.map Prod.fst ++ [item.id])
    (horder : s.started ++ s.updateBatches.map QueueItem.id = range s.nQueued) :
    Ends (fun s' => Inv s' ∧ s'.batchesLeft ≤ s.updateBatches.length) (onFibUpdateSuccess item s) ∧
      Ends (fun s' => Inv s' ∧ s'.batchesLeft ≤ s.updateBatches.length)
        (onFibUpdateFailure item s) := by
  constructor
  · refine (ends_succeed hout hstarted).bind fun s' hs' => ?_
    obtain ⟨hidle, hout', hstarted', hsame, hqueue, hqueued⟩ := hs'
    unfold sendBatchFromQueue
    grind [ends_advance]
  · exact ends_advance s.updateBatches rfl hout (by simpa using hstarted) horder

/-- There is less work with one batch less. -/
theorem work_lt_of_batchesLeft (hprogress : s.isUpdateInProgress = true)
    (h : s'.batchesLeft ≤ s.updateBatches.length) : s'.work < s.work := by
  refine Prod.Lex.toLex_lt_toLex.mpr (.inl ?_)
  change s'.batchesLeft < s.updateBatches.length + if s.isUpdateInProgress then 1 else 0
  rw [hprogress, if_pos rfl]
  exact Nat.lt_succ_of_le h

/-- There is less work with fewer answers to come. -/
theorem work_lt_of_load (hleft : s'.batchesLeft = s.batchesLeft)
    (hphase : s'.updater.updatesForBatchFaceId = [] ↔ s.updater.updatesForBatchFaceId = [])
    (h : load s'.outstanding < load s.outstanding) : s'.work < s.work := by
  unfold work
  grind [Prod.Lex.toLex_lt_toLex]

/-- What a response finds: the commands in flight belong to one batch, and removing the update of
the answered command from the pending ones leaves the updates of the others. -/
theorem Inv.of_response (h : Inv s) (hc : s.outstanding[i]? = some c) :
    ∃ item, s.isUpdateInProgress = true ∧ InProgress s item ∧ c.item = item ∧
      (pending s.updater).Perm (c.update :: (s.outstanding.eraseIdx i).map FibCommand.update) := by
  have hprogress : s.isUpdateInProgress = true := by grind [h.idle]
  obtain ⟨item, hitem⟩ := h.busy hprogress
  grind [hitem.item_eq, getElem_cons_eraseIdx_perm, hitem.updates_perm]

/-- The commands in progress are of one of the two lists. -/
theorem InProgress.face_iff (h : InProgress s item) {v : FibUpdate} (hv : v ∈ pending s.updater) :
    v.faceId = s.updater.batchFaceId ↔ s.updater.updatesForBatchFaceId ≠ [] := by
  rw [h.divided.batchFaceId_eq]
  grind [pending, h.divided.nonBatch_face, h.divided.batch_face]

/-- The invariant after a command was answered. -/
theorem Inv.replace (h : Inv s) (hprogress : s.isUpdateInProgress = true)
    (hitem : InProgress s item) {u : FibUpdater} (hdivided : u.Divided item.update.route.faceId)
    (hcs : ∀ c ∈ cs, c.item = item) (hperm : (cs.map FibCommand.update).Perm (pending u))
    (hne : pending u ≠ []) : Inv { s with updater := u, outstanding := cs } where
  queue_order := h.queue_order
  idle hidle := by
    rw [hprogress] at hidle
    cases hidle
  busy _ := ⟨item, hitem.started_eq, hdivided, hcs, hperm, hne⟩
  queue_idle := h.queue_idle

/-- The other commands are of the same batch. -/
theorem item_of_mem_eraseIdx (hitem : InProgress s item)
    (hc : c ∈ s.outstanding.eraseIdx i) : c.item = item :=
  hitem.item_eq c ((eraseIdx_sublist s.outstanding i).subset hc)

/-- The last command of a batch is answered. -/
theorem Inv.ends_last (h : Inv s) (hprogress : s.isUpdateInProgress = true)
    (hitem : InProgress s item) (u : FibUpdater) (hcs : cs = []) :
    Ends (fun s' => Inv s' ∧ s'.work < s.work)
        (onFibUpdateSuccess item { s with updater := u, outstanding := cs }) ∧
      Ends (fun s' => Inv s' ∧ s'.work < s.work)
        (onFibUpdateFailure item { s with updater := u, outstanding := cs }) := by
  obtain ⟨hsuccess, hfailure⟩ := ends_complete
    (s := { s with updater := u, outstanding := cs }) hcs hitem.started_eq h.queue_order
  grind [hsuccess.mono, work_lt_of_batchesLeft, hfailure.mono]

section

variable (h : Inv s) (hc : s.outstanding[i]? = some c)

include h hc

/-- A command for another face is dropped. -/
theorem Inv.ends_dropNonBatch (hface : c.update.faceId ≠ s.updater.batchFaceId) :
    Ends (fun s' => Inv s' ∧ s'.work < s.work)
      (dropNonBatch { s with outstanding := s.outstanding.eraseIdx i } c) := by
  obtain ⟨item, hprogress, hitem, hcitem, hperm⟩ := h.of_response hc
  have hbatch : s.updater.updatesForBatchFaceId = [] := by grind [hitem.face_iff]
  rw [show pending s.updater = s.updater.updatesForNonBatchFaceId from if_pos hbatch] at hperm
  have hleft := removeUpdate_perm hitem.divided.nonBatch_distinct hperm
  unfold dropNonBatch
  by_cases hempty : removeUpdate s.updater.updatesForNonBatchFaceId c.update = []
  · have hrest : s.outstanding.eraseIdx i = [] := by simpa [hempty] using hleft
    grind [h.ends_last]
  rw [if_neg fun hlen => hempty (length_eq_zero_iff.mp hlen)]
  refine ⟨h.replace hprogress hitem ⟨hitem.divided.1, hitem.divided.2, fun v hv => ?_,
    hitem.divided.4, hitem.divided.5.filter _⟩ (fun _ hd => item_of_mem_eraseIdx hitem hd) ?_ ?_,
    work_lt_of_load rfl Iff.rfl ?_⟩
  · exact hitem.divided.3 v (mem_of_mem_filter hv)
  · simpa [pending, hbatch] using hleft.symm
  · simpa [pending, hbatch] using hempty
  · grind [load_eraseIdx]

/-- A command has succeeded. -/
theorem Inv.ends_onUpdateSuccess :
    Ends (fun s' => Inv s' ∧ s'.work < s.work)
      (onUpdateSuccess { s with outstanding := s.outstanding.eraseIdx i } c) := by
  unfold onUpdateSuccess
  by_cases hface : c.update.faceId = s.updater.batchFaceId
  swap
  · rw [if_neg hface]
    exact h.ends_dropNonBatch hc hface
  obtain ⟨item, hprogress, hitem, hcitem, hperm⟩ := h.of_response hc
  have hbatch : s.updater.updatesForBatchFaceId ≠ [] :=
    (hitem.face_iff (hperm.mem_iff.mpr mem_cons_self)).mp hface
  rw [show pending s.updater = s.updater.updatesForBatchFaceId from if_neg hbatch] at hperm
  have hleft := removeUpdate_perm hitem.divided.batch_distinct hperm
  rw [if_pos hface, hcitem]
  by_cases hempty : removeUpdate s.updater.updatesForBatchFaceId c.update = []
  · have hrest : s.outstanding.eraseIdx i = [] := by simpa [hempty] using hleft
    rw [if_pos (by rw [hempty]; rfl), hempty]
    unfold sendUpdatesForNonBatchFaceId
    by_cases hnon : s.updater.updatesForNonBatchFaceId = []
    · grind [h.ends_last]
    -- the commands for the other faces are sent
    rw [if_pos (length_pos_iff.mpr hnon)]
    have hdivided : FibUpdater.Divided { s.updater with updatesForBatchFaceId := [] }
        item.update.route.faceId :=
      ⟨hitem.divided.1, fun v hv => absurd hv not_mem_nil, hitem.divided.3,
        Pairwise.nil, hitem.divided.5⟩
    refine ⟨inv_sendUpdates (s := { s with
        updater := { s.updater with updatesForBatchFaceId := [] }
        outstanding := s.outstanding.eraseIdx i })
      hprogress hrest hitem.started_eq hdivided hnon h.queue_order, ?_⟩
    · rw [sendUpdates_eq]
      refine Prod.Lex.toLex_lt_toLex.mpr (.inr ⟨rfl, Prod.Lex.toLex_lt_toLex.mpr (.inl ?_)⟩)
      simp [hbatch]
  · rw [if_neg fun hlen => hempty (length_eq_zero_iff.mp hlen)]
    refine ⟨h.replace hprogress hitem ⟨hitem.divided.1, fun v hv => ?_, hitem.divided.3,
      hitem.divided.4.filter _, hitem.divided.5⟩ (fun _ hd => item_of_mem_eraseIdx hitem hd) ?_ ?_,
      work_lt_of_load rfl (iff_of_false hempty hbatch) ?_⟩
    · exact hitem.divided.2 v (mem_of_mem_filter hv)
    · simpa [pending, hempty] using hleft.symm
    · simp [pending, hempty]
    · grind [load_eraseIdx]

/-- A command has failed, in a way that is expected. -/
theorem Inv.ends_onUpdateError {code : ℕ} (hok : ReplyOk s c (.error code)) :
    Ends (fun s' => Inv s' ∧ s'.work < s.work)
      (onUpdateError { s with outstanding := s.outstanding.eraseIdx i } c code) := by
  obtain ⟨item, hprogress, hitem, hcitem, hperm⟩ := h.of_response hc
  have hne : errorFaceNotFound ≠ errorTimeout := by decide
  unfold onUpdateError
  rcases hok with htimeout | ⟨rfl, hsole⟩
  · rw [if_pos htimeout]
    refine ⟨h.replace hprogress hitem hitem.divided (fun d hd => ?_) ?_ hitem.pending_ne,
      work_lt_of_load rfl Iff.rfl ?_⟩
    · grind [item_of_mem_eraseIdx]
    · grind
    · have hload := load_eraseIdx hc
      grind [sendAddNextHopUpdate, load]
  by_cases hface : c.update.faceId = s.updater.batchFaceId
  · -- the only command in flight: nothing is left behind
    have hrest : s.outstanding.eraseIdx i = [] := by
      grind [length_eq_zero_iff, length_eraseIdx_of_lt]
    rw [if_pos hface, hcitem]
    exact (h.ends_last hprogress hitem s.updater hrest).2
  · rw [if_neg hface]
    exact h.ends_dropNonBatch hc hface

end

/-- Every expected response keeps the invariant and leaves less work. -/
theorem Inv.ends_response (h : Inv s) {reply : Reply} (hi : i < s.outstanding.length)
    (hok : EventOk s (.response i reply)) :
    Ends (fun s' => Inv s' ∧ s'.work < s.work) (s.step (.response i reply)) := by
  have hc : s.outstanding[i]? = some s.outstanding[i] := getElem?_eq_getElem hi
  have hreply := hok _ hc
  grind [step, h.ends_onUpdateSuccess, h.ends_onUpdateError]

/-! ### Whole runs -/

/-- Every expected event keeps the invariant. -/
theorem Inv.ends_step (h : Inv s) {ev : Event} (hok : EventOk s ev) : Ends Inv (s.step ev) := by
  cases ev with
  | beginApplyUpdate update => exact (h.toSound.addUpdateToQueue update).ends_sendBatchFromQueue
  | beginRemoveFace faceId => exact (h.toSound.queueRemovals faceId).ends_sendBatchFromQueue
  | response i reply =>
    by_cases hi : i < s.outstanding.length
    · exact (h.ends_response hi hok).mono fun _ hs' => hs'.1
    · simp only [step, getElem?_eq_none (not_lt.mp hi)]
      exact h

/-- Every expected run keeps the invariant. -/
theorem Inv.ends_run {evs : List Event} : ∀ {s : BatchState}, Inv s → RunOk s evs →
    Ends Inv (s.run evs) := by
  induction evs with
  | nil => exact fun h _ => h
  | cons ev evs ih =>
    intro s h hok
    have hstep := h.ends_step hok.1
    have hrest := hok.2
    unfold run
    cases hr : s.step ev with
    | error fault =>
      rw [hr] at hstep
      exact hstep
    | ok s' =>
      rw [hr] at hstep hrest
      exact ih hstep hrest

/-- The invariant gives what should hold. -/
theorem Inv.orderly (h : Inv s) : Orderly s := by
  rcases hprogress : s.isUpdateInProgress with _ | _
  · obtain ⟨hout, hstarted⟩ := h.idle hprogress
    have hqueue := h.queue_idle hprogress
    refine ⟨h.queue_order, ⟨none, by simpa using hstarted, fun c hc => ?_⟩, fun _ => ?_⟩
    all_goals grind [h.queue_order]
  obtain ⟨item, hitem⟩ := h.busy hprogress
  refine ⟨h.queue_order, ⟨some item.id, hitem.started_eq, fun c hc => ?_⟩, fun hout => ?_⟩
  · rw [hitem.item_eq c hc]
  · have hperm := hitem.updates_perm
    rw [hout] at hperm
    exact absurd hperm.symm.eq_nil hitem.pending_ne

/-- All commands are answered in the end. -/
theorem Inv.acc (h : Inv s) : Acc Answered s := by
  induction hw : s.work using WellFoundedLT.induction generalizing s with
  | ind w ih =>
    refine Acc.intro s fun s' hs' => ?_
    obtain ⟨i, reply, hi, hok, hstep⟩ := hs'
    have hends := h.ends_response hi hok
    rw [hstep] at hends
    exact ih s'.work (hw ▸ hends.2) hends.1 rfl

/-- In a run whose responses meet the condition, nothing is thrown, and in the state that is reached
the batches are in order and all will be completed after finitely many responses. -/
theorem orderly_of_runOk (rib : Rib) (evs : List Event) (h : RunOk (create rib) evs) :
    Ends (fun s => Orderly s ∧ Acc Answered s) ((create rib).run evs) :=
  ((inv_create rib).ends_run h).mono fun _ hs => ⟨hs.orderly, hs.acc⟩

/-- Registration of `/a/b` and, after its command succeeded, of a child-inherit route at `/a`, whose
two commands are for the face of the batch. -/
def twoCommands : List Event :=
  [.beginApplyUpdate ⟨.register, SmallRib.ab, SmallRib.route 2 0 0 5⟩, .response 0 .success,
    .beginApplyUpdate ⟨.register, SmallRib.a, SmallRib.route 1 0 1 10⟩]

/-- The second batch succeeds in one command and fails in the last one, after a timeout; the third
succeeds. -/
def lastCommandFails : List Event :=
  twoCommands ++ [.beginApplyUpdate ⟨.register, [.generic [99]], SmallRib.route 1 0 0 7⟩,
      .response 1 (.error errorTimeout), .response 0 .success,
      .response 0 (.error errorFaceNotFound), .response 0 .success]

/-- A run in which the last command of a batch fails. -/
theorem orderly_lastCommandFails : RunOk (create .create) lastCommandFails ∧
      ((create .create).run lastCommandFails).toOption.map completed =
        some [(0, .success), (1, .failure), (2, .success)] ∧
      Ends (fun s => Orderly s ∧ Acc Answered s) ((create .create).run lastCommandFails) := by
  have hok : RunOk (create .create) lastCommandFails := by decide +kernel
  exact ⟨hok, by decide +kernel, orderly_of_runOk .create lastCommandFails hok⟩

/-- Two more batches are queued and both commands of the second batch fail. -/
def bothCommandsFail : List Event :=
  twoCommands ++ [.beginApplyUpdate ⟨.register, [.generic [99]], SmallRib.route 1 0 0 7⟩,
      .beginApplyUpdate ⟨.register, [.generic [100]], SmallRib.route 1 0 0 7⟩,
      .response 0 (.error errorFaceNotFound), .response 0 (.error errorFaceNotFound)]

/-- The fault that ends a run. -/
def faultOf : Except Fault BatchState → Option Fault
  | .ok _ => none
  | .error fault => some fault

/-- When both commands of the second batch fail, it is completed twice, the third and the fourth
batch are in progress at the same time, and when all commands are answered the third is still not
completed.  And a response with any other code than 410 throws. -/
theorem secondFailure_not_orderly :
    ((create .create).run bothCommandsFail).toOption.map (fun s => (s.completed, s.started)) =
        some ([(0, .success), (1, .failure), (1, .failure)], [0, 1, 2, 3]) ∧
      ((create .create).run
          (bothCommandsFail ++ [.response 0 .success, .response 0 .success])).toOption.map
          (fun s => (s.completed, s.outstanding)) =
        some ([(0, .success), (1, .failure), (1, .failure), (3, .success)], []) ∧
      faultOf ((create .create).run (twoCommands ++ [.response 0 (.error 403)])) =
        some .nonRecoverableError := by
  exact ⟨by decide +kernel, by decide +kernel, by decide +kernel⟩

end BatchState

end IcnDemo
