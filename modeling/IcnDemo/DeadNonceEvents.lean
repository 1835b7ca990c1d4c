import IcnDemo.DeadNonceList

/-!
# The events of the dead nonce list

A dead nonce list together with the scheduler's events that call it.  `mark` schedules its next
call but does not store the new id, so that the destructor, which cancels the two events whose ids
are stored, leaves that call pending.
-/

namespace IcnDemo

open List

/-- What a scheduled event calls. -/
inductive Callback where
  | mark
  | adjustCapacity

/-- A dead nonce list, the items pushed into it so far, the event ids that it stores, and the
pending events with the next free id. -/
structure DeadNonceEvents where
  list : DeadNonceList
  pushed : List UInt64
  mMarkEvent : ℕ
  mAdjustCapacityEvent : ℕ
  pending : ℕ → Option Callback
  nextEvent : ℕ

namespace DeadNonceEvents

open DeadNonceList

/-- `scheduler::schedule`; the id is the old `nextEvent`. -/
def schedule (callback : Callback) (s : DeadNonceEvents) : DeadNonceEvents :=
  { s with
    pending := Function.update s.pending s.nextEvent (some callback)
    nextEvent := s.nextEvent + 1 }

/-- `scheduler::cancel`. -/
def cancel (event : ℕ) (s : DeadNonceEvents) : DeadNonceEvents :=
  { s with pending := Function.update s.pending event none }

/-- The constructor. -/
def create : DeadNonceEvents :=
  schedule .adjustCapacity
    (schedule .mark ⟨.create, DeadNonceList.create.queue, 0, 1, fun _ => none, 0⟩)

/-- The destructor. -/
def destroy (s : DeadNonceEvents) : DeadNonceEvents :=
  (s.cancel s.mMarkEvent).cancel s.mAdjustCapacityEvent

/-- An event fires, if it is pending. -/
def fire (event : ℕ) (s : DeadNonceEvents) : DeadNonceEvents :=
  match s.pending event with
  | none => s
  | some .mark =>
    schedule .mark { s.cancel event with list := s.list.mark, pushed := s.pushed ++ [markItem] }
  | some .adjustCapacity =>
    schedule .adjustCapacity
      { s.cancel event with list := s.list.adjustCapacity, mAdjustCapacityEvent := s.nextEvent }

/-- A call of `add`, or an event that fires. -/
inductive Action where
  | add (name : Name) (nonce : UInt32)
  | fire (event : ℕ)

/-- An action. -/
def step (s : DeadNonceEvents) : Action → DeadNonceEvents
  | .add name nonce =>
    { s with list := s.list.add name nonce, pushed := s.pushed ++ [makeEntry name nonce] }
  | .fire event => s.fire event

/-- The state after some actions. -/
def run (actions : List Action) : DeadNonceEvents :=
  actions.foldl step create

/-! ### The queue -/

/-- An insertion lengthens the queue at most up to the capacity. -/
theorem length_add_le (dnl : DeadNonceList) (name : Name) (nonce : UInt32) :
    (dnl.add name nonce).queue.length ≤ max dnl.capacity dnl.queue.length := by
  simp only [add, evictEntries, evictLimit, length_drop, length_append, length_singleton]
  omega

/-- The capacity is in its range, and the queue ends with the last items that were pushed. -/
structure Kept (dnl : DeadNonceList) (pushed : List UInt64) : Prop where
  minCapacity_le : minCapacity ≤ dnl.capacity
  le_maxCapacity : dnl.capacity ≤ maxCapacity
  queue_suffix : dnl.queue <:+ pushed
  le_length : min minCapacity pushed.length ≤ dnl.queue.length

variable {dnl : DeadNonceList} {pushed : List UInt64}

/-- A new item is at the end of what was pushed. -/
theorem Kept.push (h : Kept dnl pushed) (item : UInt64) :
    Kept { dnl with queue := dnl.queue ++ [item] } (pushed ++ [item]) := by
  obtain ⟨before, hbefore⟩ := h.queue_suffix
  refine ⟨h.minCapacity_le, h.le_maxCapacity, ⟨before, ?_⟩, ?_⟩
  · rw [← append_assoc, hbefore]
  · have := h.le_length
    simp only [length_append, length_singleton]
    omega

/-- Evictions keep the latest items. -/
theorem Kept.evictEntries (h : Kept dnl pushed) : Kept dnl.evictEntries pushed := by
  refine ⟨h.minCapacity_le, h.le_maxCapacity, (drop_suffix _ _).trans h.queue_suffix, ?_⟩
  have hcapacity := h.minCapacity_le
  have hlength := h.le_length
  rw [DeadNonceList.evictEntries, length_drop]
  omega

/-- Another capacity does not change the queue. -/
theorem Kept.adjustCapacity (h : Kept dnl pushed) : Kept dnl.adjustCapacity pushed := by
  have hle := h.minCapacity_le
  have hge := h.le_maxCapacity
  refine Kept.evictEntries ⟨?_, ?_, h.queue_suffix, h.le_length⟩
  all_goals
    simp only [minCapacity, maxCapacity] at hle hge ⊢
    split_ifs <;> omega

variable (actions : List Action)

/-- The queue is a final part of what was pushed, with at least the smallest capacity. -/
theorem kept_run : Kept (run actions).list (run actions).pushed := by
  induction actions using reverseRecOn with
  | nil => exact ⟨by decide, by decide, suffix_rfl, by decide⟩
  | append_singleton actions a ih =>
    rw [run, foldl_append]
    change Kept (step (run actions) a).list (step (run actions) a).pushed
    cases a with
    | add name nonce => exact (ih.push _).evictEntries
    | fire event =>
      simp only [step, fire]
      split
      · exact ih
      · obtain ⟨hmin, hmax, hsuffix, hlength⟩ := ih.push markItem
        exact ⟨hmin, hmax, hsuffix, hlength⟩
      · exact ih.adjustCapacity

/-- What was pushed stays in the record. -/
theorem pushed_isPrefix (s : DeadNonceEvents) :
    s.pushed <+: (actions.foldl step s).pushed := by
  induction actions generalizing s with
  | nil => exact prefix_rfl
  | cons a actions ih =>
    refine IsPrefix.trans ?_ (ih (step s a))
    cases a with
    | add name nonce => exact prefix_append _ _
    | fire event =>
      simp only [step, fire]
      split
      · exact prefix_rfl
      · exact prefix_append _ _
      · exact prefix_rfl

/-- The latest items, as many as the smallest capacity, are in the queue. -/
theorem recent_suffix :
    (run actions).pushed.drop ((run actions).pushed.length - minCapacity) <:+
      (run actions).list.queue := by
  have h := kept_run actions
  refine suffix_of_suffix_length_le (drop_suffix _ _) h.queue_suffix ?_
  have := h.le_length
  rw [length_drop]
  omega

/-- A nonce is found until as many items were pushed behind it. -/
theorem has_of_recent (name : Name) (nonce : UInt32) (later : List Action)
    (h : (run (actions ++ .add name nonce :: later)).pushed.length ≤
      (run actions).pushed.length + minCapacity) :
    (run (actions ++ .add name nonce :: later)).list.has name nonce := by
  have hrecent := recent_suffix (actions ++ .add name nonce :: later)
  obtain ⟨more, hmore⟩ := pushed_isPrefix later (step (run actions) (.add name nonce))
  have hrun : run (actions ++ .add name nonce :: later) =
      later.foldl step (step (run actions) (.add name nonce)) := by
    rw [run, foldl_append, foldl_cons, run]
  rw [hrun] at h hrecent ⊢
  generalize later.foldl step (step (run actions) (.add name nonce)) = t at *
  rw [DeadNonceList.has, contains_iff_mem]
  refine hrecent.subset ?_
  rw [← hmore] at h ⊢
  simp only [step, append_assoc, singleton_append, length_append, length_cons] at h ⊢
  rw [drop_append_of_le_length (by omega)]
  simp

/-! ### The events -/

/-- One event is pending for each of the two functions. -/
structure Scheduled (s : DeadNonceEvents) (markEvent : ℕ) : Prop where
  pending_eq : s.pending = Function.update (Function.update (fun _ => none) markEvent (some .mark))
    s.mAdjustCapacityEvent (some .adjustCapacity)
  lt_nextEvent : markEvent < s.nextEvent ∧ s.mAdjustCapacityEvent < s.nextEvent
  ne : markEvent ≠ s.mAdjustCapacityEvent ∧ s.mAdjustCapacityEvent ≠ 0
  stored : s.mMarkEvent = 0

/-- Each event schedules itself anew, the mark event under another id. -/
theorem Scheduled.fire {s : DeadNonceEvents} {markEvent : ℕ} (h : Scheduled s markEvent)
    (event : ℕ) :
    Scheduled (s.fire event) (if event = markEvent then s.nextEvent else markEvent) := by
  obtain ⟨hpending, hlt, hne, hstored⟩ := h
  have hevent := congrFun hpending event
  rw [Function.update_apply, Function.update_apply] at hevent
  unfold DeadNonceEvents.fire
  split
  · rw [if_neg (by grind)]
    exact ⟨hpending, hlt, hne, hstored⟩
  -- The two functions schedule themselves again, one of them under a new stored id.
  all_goals
    refine ⟨funext fun other => ?_, ?_, ?_, hstored⟩
    · simp only [schedule, cancel, hpending, Function.update_apply]
      grind
    · simp only [schedule, cancel]
      grind
    · simp only [schedule, cancel]
      grind

/-- A mark event is pending, the first one exactly if that has not fired. -/
theorem exists_scheduled : ∃ markEvent, Scheduled (run actions) markEvent ∧
    (markEvent = 0 ↔ .fire 0 ∉ actions) := by
  induction actions using reverseRecOn with
  | nil => exact ⟨0, ⟨rfl, by decide, by decide, rfl⟩, by simp⟩
  | append_singleton actions a ih =>
    obtain ⟨markEvent, h, hiff⟩ := ih
    rw [run, foldl_append]
    change ∃ markEvent, Scheduled (step (run actions) a) markEvent ∧ _
    cases a with
    | add name nonce =>
      exact ⟨markEvent, ⟨h.pending_eq, h.lt_nextEvent, h.ne, h.stored⟩, by simpa using hiff⟩
    | fire event =>
      refine ⟨_, h.fire event, ?_⟩
      have := h.lt_nextEvent
      grind

/-- The destructor cancels all events exactly if no mark event has fired. -/
theorem destroy_pending_iff :
    (∀ event, (run actions).destroy.pending event = none) ↔ .fire 0 ∉ actions := by
  obtain ⟨markEvent, h, hiff⟩ := exists_scheduled actions
  have hdestroy (event : ℕ) : (run actions).destroy.pending event =
      if event = markEvent ∧ event ≠ 0 then some .mark else none := by
    have := h.ne.1
    simp only [destroy, cancel, h.pending_eq, h.stored, Function.update_apply]
    grind
  simp [hdestroy, ← hiff]

end DeadNonceEvents

end IcnDemo
