import IcnDemo.Rib.Moves

/-!
# Updates that fail

An update changes the RIB only when all its FIB commands have succeeded: what is to be inherited is
kept in the updater, and the entries are computed on copies.  But `RibEntry::eraseRoute`, which is
used on such a copy to compute the commands of an unregistration, also cancels the expiration event
of the route.  If the update fails, the route stays and has no event any more.

Events that have fired are in the list of cancelled ones, too: what is not in the list is pending.
-/

namespace IcnDemo

open List

/-- The RIB is the same, and the events of its routes are still pending. -/
structure Rib.Same (rib rib' : Rib) : Prop where
  entries : rib'.entries = rib.entries
  names : rib'.names = rib.names
  faceMap : rib'.faceMap = rib.faceMap
  nItems : rib'.nItems = rib.nItems
  pending : ∀ n e, rib.find n = some e → ∀ r ∈ e.routes, ∀ id, r.expirationEvent = some id →
    id ∉ rib.cancelled → id ∉ rib'.cancelled

namespace BatchState

variable {s s' t : BatchState} {item : QueueItem}

/-- In the state `s` a response with code 410 makes a batch fail, and `t` is the state in which its
failure callback is called. -/
def FailsBy (s : BatchState) (i : ℕ) (item : QueueItem) (t : BatchState) : Prop :=
  ∃ c, s.outstanding[i]? = some c ∧ c.item = item ∧ c.update.faceId = s.updater.batchFaceId ∧
    t = failed item { s with outstanding := s.outstanding.eraseIdx i }

/-- The first batch in the queue is started, and is the next one to be completed: it fails. -/
structure Fails (s : BatchState) (item : QueueItem) (t : BatchState) : Prop where
  idle : s.isUpdateInProgress = false
  first : ∃ items, s.updateBatches = item :: items
  failure : ∃ s₁ events s₂ i, s.sendBatchFromQueue = .ok s₁ ∧ s₁.run events = .ok s₂ ∧
    s₂.completed = s.completed ∧ FailsBy s₂ i item t

/-- An unregistration does not find a route with a pending event. -/
def NoEventLost (rib : Rib) (update : RibUpdate) : Prop :=
  update.action = .register ∨
    ∀ id ∈ FibUpdater.cancelledBy rib update.name update.route, id ∈ rib.cancelled

instance (rib : Rib) (update : RibUpdate) : Decidable (NoEventLost rib update) :=
  inferInstanceAs (Decidable (_ ∨ _))

/-! ### While a batch is in progress -/

/-- Completed batches stay completed, and until the next completion the RIB stays as it is. -/
structure Proceeds (s s' : BatchState) : Prop where
  completed : s.completed <+: s'.completed
  same : s'.completed = s.completed → s.isUpdateInProgress = true →
    s'.rib = s.rib ∧ s'.isUpdateInProgress = true

/-- One batch more is completed. -/
theorem Proceeds.of_completion {x : ℕ × BatchOutcome} (h : s'.completed = s.completed ++ [x]) :
    Proceeds s s' := by
  refine ⟨h ▸ prefix_append _ _, fun heq _ => ?_⟩
  grind [length_append]

/-- A batch that succeeds is completed. -/
theorem completed_succeed (h : s.succeed item = .ok s') :
    s'.completed = s.completed ++ [(item.id, .success)] := by
  unfold succeed at h
  split at h
  · cases h
  · cases h
    rfl

/-- The moves complete batches one by one. -/
theorem moves_proceeds : Moves Proceeds where
  trans {s s' s''} h h' := by
    refine ⟨h.completed.trans h'.completed, fun heq hprogress => ?_⟩
    -- between two equal lists there is no other one
    have hmid : s'.completed = s.completed :=
      ((heq ▸ h'.completed).eq_of_length_le h.completed.length_le)
    grind [h.same, h'.same]
  keep _ hcompleted hrib hprogress :=
    ⟨hcompleted ▸ prefix_refl _, fun _ h => ⟨hrib, hprogress.trans h⟩⟩
  send item vs s := by
    rw [sendUpdates_eq]
    exact ⟨prefix_refl _, fun _ h => ⟨rfl, h⟩⟩
  take hidle _ _ _ := ⟨prefix_refl _, fun _ h => by simp [hidle] at h⟩
  succeed h := .of_completion (completed_succeed h)
  fail _ _ := .of_completion rfl

/-- In every run batches are completed one by one. -/
theorem proceeds_run (events : List Event) :
    ∀ {s s' : BatchState}, s.run events = .ok s' → Proceeds s s' := by
  induction events with
  | nil =>
    intro s s' h
    cases h
    exact moves_proceeds.keep (Subset.refl _) rfl rfl rfl
  | cons ev events ih =>
    intro s s' h
    simp only [run] at h
    cases hstep : s.step ev with
    | error fault =>
      rw [hstep] at h
      cases h
    | ok s₁ =>
      rw [hstep] at h
      refine moves_proceeds.trans ?_ (ih h)
      rcases moves_proceeds.step hstep with hproceeds | ⟨i, c, -, -, -, rfl⟩
      · exact hproceeds
      · exact ⟨prefix_refl _, fun _ h => ⟨rfl, h⟩⟩

/-- A batch that is started and not completed at once has cancelled its events, and is in
progress. -/
theorem rib_of_sendBatchFromQueue {items : List QueueItem} (hidle : s.isUpdateInProgress = false)
    (hqueue : s.updateBatches = item :: items) (h : s.sendBatchFromQueue = .ok s') :
    s.completed <+: s'.completed ∧ (s'.completed = s.completed →
      s'.isUpdateInProgress = true ∧ ∃ u, FibUpdater.computeUpdates s.rib item.update = some u ∧
        s'.rib = { s.rib with cancelled := s.rib.cancelled ++ u.cancelled }) := by
  refine ⟨(moves_proceeds.advance _ _ _ h).completed, fun heq => ?_⟩
  unfold sendBatchFromQueue advance at h
  simp only [hqueue, hidle, Bool.false_eq_true, if_false] at h
  split at h
  · cases h
  rename_i u hu
  unfold sendUpdatesForBatchFaceId sendUpdatesForNonBatchFaceId at h
  split at h
  · cases h
    rw [sendUpdates_eq]
    exact ⟨rfl, u, hu, rfl⟩
  split at h
  · cases h
    rw [sendUpdates_eq]
    exact ⟨rfl, u, hu, rfl⟩
  exfalso
  dsimp only at h
  rcases hsucceed : succeed item (s.takeBatch item items u) with fault | s₁
  · rw [hsucceed] at h
    cases h
  rw [hsucceed] at h
  have hlength := (moves_proceeds.advance _ _ _ h).completed.length_le
  rw [completed_succeed hsucceed, heq, length_append] at hlength
  simp only [takeBatch, length_singleton] at hlength
  omega

/-- A batch that fails leaves the RIB, but for the cancelled event. -/
theorem Fails.rib_eq (h : Fails s item t) :
    ∃ u, FibUpdater.computeUpdates s.rib item.update = some u ∧
      t.rib = { s.rib with cancelled := s.rib.cancelled ++ u.cancelled } := by
  obtain ⟨items, hqueue⟩ := h.first
  obtain ⟨s₁, events, s₂, i, hstart, hrun, hcompleted, c, -, -, -, rfl⟩ := h.failure
  obtain ⟨hfirst, hstarted⟩ := rib_of_sendBatchFromQueue h.idle hqueue hstart
  have hproceeds := proceeds_run events hrun
  have hmid : s₁.completed = s.completed :=
    (hcompleted ▸ hproceeds.completed).eq_of_length_le hfirst.length_le
  obtain ⟨hprogress, u, hu, hrib⟩ := hstarted hmid
  exact ⟨u, hu, (hproceeds.same (hcompleted.trans hmid.symm) hprogress).1.trans hrib⟩

/-- The RIB after a failure is the one before the update was started, if and only if the update did
not cancel a pending event. -/
theorem same_iff_noEventLost (h : Fails s item t) :
    Rib.Same s.rib t.rib ↔ NoEventLost s.rib item.update := by
  obtain ⟨u, hu, hrib⟩ := h.rib_eq
  have hcancelled := FibUpdater.cancelled_computeUpdates hu
  unfold NoEventLost
  constructor
  · intro hsame
    refine or_iff_not_imp_left.mpr fun haction id hid => ?_
    by_contra hpending
    -- the route to be erased has lost its event
    obtain ⟨e, he, hroute⟩ := Option.bind_eq_some_iff.mp hid
    obtain ⟨r, hr, hevent⟩ := Option.bind_eq_some_iff.mp hroute
    have hlost := hsame.pending _ e he r (mem_of_find?_eq_some hr) id hevent hpending
    simp_all
  · intro hno
    rw [hrib]
    refine ⟨rfl, rfl, rfl, rfl, fun n e he r hr id hevent hpending hmem => ?_⟩
    grind

/-- A RIB with one route, which expires with the event 7, and an update in the queue. -/
def oneRoute (action : RibAction) : BatchState :=
  (create (.ofEntries
    [⟨SmallRib.a, none, [], [⟨1, 0, 0, 10, 60, some 7⟩], [], 0⟩])).addUpdateToQueue
    ⟨action, SmallRib.a, SmallRib.route 1 0 0 5⟩

/-- A registration fails, because its command is answered with code 410; nothing is lost. -/
theorem same_iff_noEventLost_register :
    ∃ t, Fails (oneRoute .register) ⟨0, ⟨.register, SmallRib.a, SmallRib.route 1 0 0 5⟩⟩ t ∧
      Rib.Same (oneRoute .register).rib t.rib := by
  have hfails : ∃ t,
      Fails (oneRoute .register) ⟨0, ⟨.register, SmallRib.a, SmallRib.route 1 0 0 5⟩⟩ t :=
    ⟨_, rfl, ⟨_, rfl⟩, _, [], _, 0, rfl, rfl, rfl, _, rfl, rfl, rfl, rfl⟩
  obtain ⟨t, ht⟩ := hfails
  exact ⟨t, ht, (same_iff_noEventLost ht).mpr (.inl rfl)⟩

/-- An unregistration fails in the same way; the route stays, without its event. -/
theorem event_lost_by_unregistration :
    ∃ t, Fails (oneRoute .unregister) ⟨0, ⟨.unregister, SmallRib.a, SmallRib.route 1 0 0 5⟩⟩ t ∧
      ¬ Rib.Same (oneRoute .unregister).rib t.rib := by
  refine ⟨_, ⟨rfl, ⟨_, rfl⟩, _, [], _, 0, rfl, rfl, rfl, _, rfl, rfl, rfl, rfl⟩, fun hsame => ?_⟩
  have hpending := hsame.pending SmallRib.a _ rfl ⟨1, 0, 0, 10, 60, some 7⟩ mem_cons_self 7 rfl
    (by decide)
  exact hpending (by decide)

end BatchState

end IcnDemo
