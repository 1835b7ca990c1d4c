import IcnDemo.Rib.Moves

/-!
# Commands that are sent again

A FIB update is sent as the command of its action.  After a timeout, `FibUpdater::onUpdateError`
sends it again with `sendAddNextHopUpdate`, also when it is a removal: the command of a removal that
timed out adds the next hop with cost 0, and when it succeeds the update is taken as done.  In a run
without such a timeout all commands are those of their updates.
-/

namespace IcnDemo

/-- What a command asks the FIB for. -/
inductive FibRequest where
  | addNextHop (name : Name) (faceId cost : ℕ)
  | removeNextHop (name : Name) (faceId : ℕ)
deriving DecidableEq, Repr

/-- The parameters that `sendAddNextHopUpdate` and `sendRemoveNextHopUpdate` set. -/
def FibUpdate.requestOf (v : FibUpdate) : FibAction → FibRequest
  | .addNextHop => .addNextHop v.name v.faceId v.cost
  | .removeNextHop => .removeNextHop v.name v.faceId

/-- The command of an update. -/
def FibUpdate.request (v : FibUpdate) : FibRequest :=
  v.requestOf v.action

/-- The command that was sent. -/
def FibCommand.request (c : FibCommand) : FibRequest :=
  c.update.requestOf c.verb

/-- A command asks for its update if it has the verb of it. -/
theorem FibCommand.request_eq_iff (c : FibCommand) :
    c.request = c.update.request ↔ c.verb = c.update.action := by
  unfold FibCommand.request FibUpdate.request FibUpdate.requestOf
  rcases c.verb with _ | _ <;> rcases c.update.action with _ | _ <;> simp

namespace BatchState

variable {s s' : BatchState} {item : QueueItem}

/-- All new commands are the first ones for their updates. -/
def SendsFirst (s s' : BatchState) : Prop :=
  ∀ c ∈ s'.outstanding, c ∈ s.outstanding ∨ c.verb = c.update.action

/-- The moves send only new commands. -/
theorem moves_sendsFirst : Moves SendsFirst where
  trans h h' c hc := (h' c hc).elim (h c) .inr
  keep houtstanding _ _ _ _ hc := .inl (houtstanding hc)
  send item vs s c hc := by
    rw [sendUpdates_eq] at hc
    grind
  take _ _ _ _ _ hc := .inl hc
  succeed h c hc := by
    unfold succeed at h
    grind
  fail _ _ _ hc := .inl hc

variable {c : FibCommand} {ev : Event}

/-! ### Retries -/

/-- The event is a timeout after which the command is sent again. -/
def Retries (s : BatchState) (ev : Event) (c : FibCommand) : Prop :=
  ∃ i, ev = .response i (.error errorTimeout) ∧ s.outstanding[i]? = some c ∧
    c.nTimeouts < maxNumTimeouts

/-- A command as it is sent after a timeout. -/
def retried (c : FibCommand) : FibCommand :=
  ⟨c.item, c.update, .addNextHop, c.nTimeouts + 1⟩

/-- A command that times out is sent again, as an addition. -/
theorem step_of_retries (h : Retries s ev c) :
    ∃ s', s.step ev = .ok s' ∧ retried c ∈ s'.outstanding := by
  obtain ⟨i, rfl, hc, hlt⟩ := h
  grind [step, onUpdateError, sendAddNextHopUpdate, retried]

/-- A command is old, new, or retried. -/
theorem outstanding_step (h : s.step ev = .ok s') (hc : c ∈ s'.outstanding) :
    c ∈ s.outstanding ∨ c.verb = c.update.action ∨ ∃ c₀, Retries s ev c₀ ∧ c = retried c₀ := by
  rcases moves_sendsFirst.step h with hfirst | ⟨i, c₀, hev, hi, hlt, rfl⟩
  · exact (hfirst c hc).imp id .inl
  rcases List.mem_append.mp hc with hc | hc
  · exact .inl (List.mem_of_mem_eraseIdx hc)
  · exact .inr (.inr ⟨c₀, ⟨i, hev, hi, hlt⟩, List.mem_singleton.mp hc⟩)

theorem run_append (s : BatchState) (es : List Event) (ev : Event) :
    s.run (es ++ [ev]) = (s.run es).bind fun s => s.step ev := by
  induction es generalizing s with
  | nil =>
    simp only [List.nil_append, run, Except.bind]
    rcases s.step ev with fault | s' <;> rfl
  | cons e es ih =>
    simp only [List.cons_append, run]
    rcases s.step e with fault | s'
    · rfl
    · exact ih s'

/-- A removal that timed out. -/
def RetriesRemoval (s : BatchState) (ev : Event) : Prop :=
  ∃ c, Retries s ev c ∧ c.update.action = .removeNextHop

/-- All commands in flight are those of their updates. -/
def Own (s : BatchState) : Prop :=
  ∀ c ∈ s.outstanding, c.request = c.update.request

/-- Commands keep asking for their updates unless a removal is retried. -/
theorem own_step (hown : s.Own) (hno : ¬ RetriesRemoval s ev) (h : s.step ev = .ok s') :
    s'.Own := by
  intro c hc
  rw [FibCommand.request_eq_iff]
  rcases outstanding_step h hc with hc | hfirst | ⟨c₀, hretry, rfl⟩
  · exact (FibCommand.request_eq_iff c).mp (hown c hc)
  · exact hfirst
  · rcases haction : c₀.update.action with _ | _
    · exact haction.symm
    · exact absurd ⟨c₀, hretry, haction⟩ hno

/-- A command is in flight from when it is sent until it is answered.  In every state of a run the
commands in flight ask for what their updates say, if and only if no removal is sent again after a
timeout. -/
theorem own_iff_no_removal_retried (rib : Rib) (events : List Event) :
    (∀ es s, es <+: events → (create rib).run es = .ok s → s.Own) ↔
      ∀ es ev s, es ++ [ev] <+: events → (create rib).run es = .ok s → ¬ RetriesRemoval s ev := by
  constructor
  · rintro hown es ev s hes hrun ⟨c, hretry, haction⟩
    obtain ⟨s', hstep, hc⟩ := step_of_retries hretry
    have hrun' : (create rib).run (es ++ [ev]) = .ok s' := by
      rw [run_append, hrun]
      exact hstep
    have hsame := hown _ s' hes hrun' _ hc
    rw [FibCommand.request_eq_iff] at hsame
    exact absurd (hsame.trans haction) (by simp [retried])
  intro hno es
  induction es using List.reverseRecOn with
  | nil =>
    intro s _ hrun c hc
    rw [← Except.ok.inj hrun] at hc
    exact absurd hc List.not_mem_nil
  | append_singleton es ev ih =>
    intro s' hes hrun
    rw [run_append] at hrun
    rcases hbefore : (create rib).run es with fault | s
    · rw [hbefore] at hrun
      cases hrun
    · rw [hbefore] at hrun
      exact own_step (ih s ((List.prefix_append _ _).trans hes) hbefore) (hno es ev s hes hbefore)
        hrun

/-- A route is registered and unregistered, and the removal times out once. -/
def removalTimesOut : List Event :=
  [.beginApplyUpdate ⟨.register, SmallRib.a, SmallRib.route 1 0 0 5⟩, .response 0 .success,
   .beginApplyUpdate ⟨.unregister, SmallRib.a, SmallRib.route 1 0 0 5⟩,
   .response 0 (.error errorTimeout)]

/-- The requests in flight after a run. -/
def requestsOf : Except Fault BatchState → List (FibRequest × FibAction)
  | .ok s => s.outstanding.map fun c => (c.request, c.update.action)
  | .error _ => []

/-- The removal is sent again as the addition of the next hop with cost 0; when this one succeeds,
the unregistration is completed. -/
theorem removal_retried_as_addition : requestsOf ((create .create).run removalTimesOut)
      = [(.addNextHop SmallRib.a 1 0, .removeNextHop)] ∧
    (match (create .create).run (removalTimesOut ++ [.response 0 .success]) with
      | .ok s => s.completed
      | .error _ => []) = [(0, .success), (1, .success)] := by
  decide +kernel

end BatchState

end IcnDemo
