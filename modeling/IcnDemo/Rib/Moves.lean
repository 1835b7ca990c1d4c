import IcnDemo.Rib.Batch

/-!
# What the events of the RIB consist of

Every event is a sequence of a few moves, except that a command that timed out is sent again.  So a
transitive relation between states that holds for the moves holds for all events.
-/

namespace IcnDemo.BatchState

open List

/-- The state in which the failure callback of a batch is called. -/
def failed (item : QueueItem) (s : BatchState) : BatchState :=
  { s with
    isUpdateInProgress := false
    completed := s.completed ++ [(item.id, .failure)] }

/-- A transitive relation that holds for every move. -/
structure Moves (T : BatchState → BatchState → Prop) : Prop where
  trans {s s' s'' : BatchState} (h : T s s') (h' : T s' s'') : T s s''
  /-- Only the queue and the updater change, and commands are answered. -/
  keep {s s' : BatchState} (houtstanding : s'.outstanding ⊆ s.outstanding)
    (hcompleted : s'.completed = s.completed) (hrib : s'.rib = s.rib)
    (hprogress : s'.isUpdateInProgress = s.isUpdateInProgress) : T s s'
  send (item : QueueItem) (vs : List FibUpdate) (s : BatchState) : T s (sendUpdates item vs s)
  take {s : BatchState} (hidle : s.isUpdateInProgress = false) (item : QueueItem)
    (items : List QueueItem) (u : FibUpdater) : T s (s.takeBatch item items u)
  succeed {s s' : BatchState} {item : QueueItem} (h : s.succeed item = .ok s') : T s s'
  fail (item : QueueItem) (s : BatchState) : T s (failed item s)

namespace Moves

variable {T : BatchState → BatchState → Prop} (hT : Moves T) {s s' : BatchState} {item : QueueItem}
  {c : FibCommand} {onSuccess : BatchState → Except Fault BatchState}

include hT

/-- A move after a step that changes nothing of interest. -/
theorem after {s'' : BatchState} (h : T s' s'') (houtstanding : s'.outstanding ⊆ s.outstanding)
    (hcompleted : s'.completed = s.completed) (hrib : s'.rib = s.rib)
    (hprogress : s'.isUpdateInProgress = s.isUpdateInProgress) : T s s'' :=
  hT.trans (hT.keep houtstanding hcompleted hrib hprogress) h

/-- Sending the updates of the other faces. -/
theorem sendUpdatesForNonBatchFaceId (hcallback : ∀ s', onSuccess s = .ok s' → T s s')
    (h : s.sendUpdatesForNonBatchFaceId item onSuccess = .ok s') : T s s' := by
  unfold BatchState.sendUpdatesForNonBatchFaceId at h
  split at h
  · cases h
    exact hT.send item _ s
  · exact hcallback s' h

/-- Sending the updates of the face. -/
theorem sendUpdatesForBatchFaceId (hcallback : ∀ s', onSuccess s = .ok s' → T s s')
    (h : s.sendUpdatesForBatchFaceId item onSuccess = .ok s') : T s s' := by
  unfold BatchState.sendUpdatesForBatchFaceId at h
  split at h
  · cases h
    exact hT.send item _ s
  · exact hT.sendUpdatesForNonBatchFaceId hcallback h

/-- A batch that succeeds, and what follows. -/
theorem succeed_bind {next : BatchState → Except Fault BatchState}
    (hnext : ∀ s s', next s = .ok s' → T s s') (h : (s.succeed item).bind next = .ok s') :
    T s s' := by
  rcases hsucceed : s.succeed item with fault | s₁
  · rw [hsucceed] at h
    cases h
  · rw [hsucceed] at h
    exact hT.trans (hT.succeed hsucceed) (hnext _ _ h)

/-- Going on to the next batches. -/
theorem advance (items : List QueueItem) : ∀ s s' : BatchState, advance items s = .ok s' →
    T s s' := by
  induction items with
  | nil =>
    intro s s' h
    cases h
    exact hT.keep (Subset.refl _) rfl rfl rfl
  | cons item items ih =>
    intro s s' h
    unfold BatchState.advance at h
    split at h
    · cases h
      exact hT.keep (Subset.refl _) rfl rfl rfl
    rename_i hidle
    split at h
    · cases h
    exact hT.trans (hT.take (by simpa using hidle) item items _)
      (hT.sendUpdatesForBatchFaceId (fun _ => hT.succeed_bind ih) h)

/-- All updates have been made. -/
theorem onFibUpdateSuccess (h : s.onFibUpdateSuccess item = .ok s') : T s s' :=
  hT.succeed_bind (fun s _ => hT.advance s.updateBatches s _) h

/-- A command for another face is dropped. -/
theorem dropNonBatch (h : s.dropNonBatch c = .ok s') : T s s' := by
  unfold BatchState.dropNonBatch at h
  dsimp only at h
  split at h
  · exact hT.after (hT.onFibUpdateSuccess h) (Subset.refl _) rfl rfl rfl
  · cases h
    exact hT.keep (Subset.refl _) rfl rfl rfl

/-- A command has succeeded. -/
theorem onUpdateSuccess (h : s.onUpdateSuccess c = .ok s') : T s s' := by
  unfold BatchState.onUpdateSuccess at h
  split at h
  · dsimp only at h
    split at h
    · exact hT.after (hT.sendUpdatesForNonBatchFaceId (fun _ => hT.onFibUpdateSuccess) h)
        (Subset.refl _) rfl rfl rfl
    · cases h
      exact hT.keep (Subset.refl _) rfl rfl rfl
  · exact hT.dropNonBatch h

/-- A command has failed and is not retried. -/
theorem onUpdateError {code : ℕ} (hretry : ¬ (code = errorTimeout ∧ c.nTimeouts < maxNumTimeouts))
    (h : s.onUpdateError c code = .ok s') : T s s' := by
  unfold BatchState.onUpdateError at h
  rw [if_neg hretry] at h
  split at h
  · split at h
    · exact hT.trans (hT.fail c.item s) (hT.advance _ _ _ h)
    · exact hT.dropNonBatch h
  · cases h

/-- New items in the queue. -/
theorem queueRemovals (s : BatchState) (faceId : ℕ) : T s (s.queueRemovals faceId) := by
  unfold BatchState.queueRemovals
  induction s.rib.findRoutesWithFaceId faceId generalizing s with
  | nil => exact hT.keep (Subset.refl _) rfl rfl rfl
  | cons x xs ih => exact hT.after (ih _) (Subset.refl _) rfl rfl rfl

/-- An event leads to a state in the relation, or a command is sent again. -/
theorem step {ev : Event} (h : s.step ev = .ok s') : T s s' ∨ ∃ i c,
    ev = .response i (.error errorTimeout) ∧ s.outstanding[i]? = some c ∧
      c.nTimeouts < maxNumTimeouts ∧ s' = sendAddNextHopUpdate
        { s with outstanding := s.outstanding.eraseIdx i } c.item c.update (c.nTimeouts + 1) := by
  rcases ev with update | faceId | ⟨i, reply⟩
  · exact .inl (hT.after (hT.advance _ _ _ h) (Subset.refl _) rfl rfl rfl)
  · exact .inl (hT.trans (hT.queueRemovals s faceId) (hT.advance _ _ _ h))
  · have hsub : s.outstanding.eraseIdx i ⊆ s.outstanding := List.eraseIdx_subset
    simp only [BatchState.step] at h
    rcases hi : s.outstanding[i]? with _ | c
    · rw [hi] at h
      cases h
      exact .inl (hT.keep (Subset.refl _) rfl rfl rfl)
    simp only [hi] at h
    rcases reply with _ | code
    · exact .inl (hT.after (hT.onUpdateSuccess h) hsub rfl rfl rfl)
    by_cases hretry : code = errorTimeout ∧ c.nTimeouts < maxNumTimeouts
    · simp only [BatchState.onUpdateError, hretry, and_self, if_true] at h
      exact .inr ⟨i, c, by rw [hretry.1], hi, hretry.2, (Except.ok.inj h).symm⟩
    · exact .inl (hT.after (hT.onUpdateError hretry h) hsub rfl rfl rfl)

end Moves

end IcnDemo.BatchState
