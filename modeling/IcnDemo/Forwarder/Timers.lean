import IcnDemo.Forwarder.Frame

/-!
# PIT timers

Every PIT entry in the table should have a pending unsatisfy or straggler timer, and no pending
timer should refer to an entry that has been erased.  Event ids are never used again, so the id an
entry holds, even a stale one, cannot belong to the timer of another entry (`TimerInv.inj`); this
is why cancelling the timers of one entry leaves all others alone.

A pipeline cancels the timers of an entry before it calls the strategy and sets a new one
afterwards.  `TimerInv` therefore carries the set of entries that may be without a timer for the
moment, and a callback may act on any entry in between.

Four things break the rule: an Interest without a readable nonce, or whose nonce is in the dead
nonce list, leaves the entry it has just created without a timer; an exception from the content
store does so after the timers have been cancelled; and a strategy that rejects an erased entry
starts a timer for it.  `RunOk` excludes them, step by step.
-/

namespace IcnDemo.Forwarder

variable {σ : Type} {env : Env σ} {s : Forwarder σ}

/-! ### Timers as slots of PIT entries -/

/-- The two timers of a PIT entry. -/
inductive TimerKind where
  | unsatisfy
  | straggler
deriving DecidableEq, Repr

/-- Which of the two timers an event is. -/
def Timer.kind : Timer → TimerKind
  | .unsatisfy _ => .unsatisfy
  | .straggler _ _ _ => .straggler

variable (P : Pit.Entry) (id : ℕ)

/-- The event id a PIT entry holds for one of its timers. -/
def timerOf : TimerKind → Option ℕ
  | .unsatisfy => P.unsatisfyTimer
  | .straggler => P.stragglerTimer

/-- Store an event id in a PIT entry. -/
def setTimerOf : TimerKind → Pit.Entry
  | .unsatisfy => { P with unsatisfyTimer := some id }
  | .straggler => { P with stragglerTimer := some id }

/-- The event id held for a timer of the entry at an address. -/
def held (s : Forwarder σ) (p : Pit.EntryId) (k : TimerKind) : Option ℕ :=
  (s.pit.entries p).bind fun P => timerOf P k

/-- What the two functions that set a timer have in common. -/
def schedule (s : Forwarder σ) (tm : Timer) : Forwarder σ :=
  let s := s.cancel (s.held tm.entry tm.kind)
  { s.modifyEntry tm.entry fun P => setTimerOf P s.nextEvent tm.kind with
    events := (s.nextEvent, tm) :: s.events
    nextEvent := s.nextEvent + 1 }

/-- The straggler timer is scheduled as any timer is. -/
theorem setStragglerTimer_eq (p : Pit.EntryId) (isSatisfied : Bool) (fresh : ℤ) :
    s.setStragglerTimer p isSatisfied fresh = s.schedule (.straggler p isSatisfied fresh) := rfl

/-- One timer of the entry is set. -/
theorem timerOf_setTimerOf (k l : TimerKind) :
    timerOf (setTimerOf P id k) l = if l = k then some id else timerOf P l := by
  cases k <;> cases l <;> rfl

/-- Timers are not in the core. -/
theorem core_setTimerOf (k : TimerKind) : (setTimerOf P id k).core = P.core := by
  cases k <;> rfl

/-- A timer leaves the name tree entry. -/
theorem nameTreeEntry_setTimerOf (k : TimerKind) :
    (setTimerOf P id k).nameTreeEntry = P.nameTreeEntry := by
  cases k <;> rfl

/-- Scheduling leaves all cores. -/
theorem core_schedule (tm : Timer) : (s.schedule tm).core = s.core :=
  core_modifyEntry (s := s) (p := tm.entry) (f := fun P => setTimerOf P s.nextEvent tm.kind)
    fun P => core_setTimerOf P s.nextEvent tm.kind

variable {s' : Forwarder σ} {tm : Timer} {p : Pit.EntryId}

/-- Scheduling leaves the other timers. -/
theorem held_schedule_of_ne {k : TimerKind}
    (h : ¬ (p = tm.entry ∧ k = tm.kind)) : (s.schedule tm).held p k = s.held p k := by
  have hpit : (s.schedule tm).pit =
      s.pit.modify tm.entry fun P => setTimerOf P s.nextEvent tm.kind := rfl
  grind [held, Pit.entries_modify_self, timerOf_setTimerOf, Pit.entries_modify_of_ne]

/-! ### Entries in the table -/

/-- The PIT entry at an address is in the table. -/
def Stored (s : Forwarder σ) (p : Pit.EntryId) : Prop :=
  ∃ P, Pit.Stored s.pit p P

/-- Being stored is about the core. -/
theorem stored_iff_core : s.Stored p ↔ ∃ c, s.core p = some c ∧ c.nameTreeEntry.isSome = true := by
  constructor
  · rintro ⟨P, hP, hsome⟩
    exact ⟨P.core, by rw [core, hP]; rfl, hsome⟩
  · rintro ⟨c, hc, hsome⟩
    obtain ⟨P, hP, rfl⟩ := Option.map_eq_some_iff.mp hc
    exact ⟨P, hP, hsome⟩

/-- The same cores are stored. -/
theorem stored_congr (h : s'.core = s.core) (p : Pit.EntryId) : s'.Stored p ↔ s.Stored p := by
  rw [stored_iff_core, stored_iff_core, h]

/-- A change in place that leaves the name tree entry. -/
theorem stored_modifyEntry {f : Pit.Entry → Pit.Entry}
    (hptr : ∀ P, (f P).nameTreeEntry = P.nameTreeEntry) (q : Pit.EntryId) :
    (s.modifyEntry p f).Stored q ↔ s.Stored q := by
  unfold Stored Pit.Stored modifyEntry
  by_cases hqp : q = p
  · simp_all
  · rw [Pit.entries_modify_of_ne s.pit f hqp]

/-- The entry holds the id of its new timer. -/
theorem held_schedule_self (h : s.Stored tm.entry) :
    (s.schedule tm).held tm.entry tm.kind = some s.nextEvent := by
  obtain ⟨P, hP, -⟩ := h
  have hpit : (s.schedule tm).pit =
      s.pit.modify tm.entry fun P => setTimerOf P s.nextEvent tm.kind := rfl
  grind [held, Pit.entries_modify_self, timerOf_setTimerOf]

/-! ### The invariant -/

/-- Every in-record of an entry was made from an Interest with a readable nonce. -/
def Readable : Prop :=
  ∀ r ∈ P.inRecords, r.interest.getNonce.isSome = true

/-- The invariant of the timers; the entries in `exempt` may be without one. -/
structure TimerInv (s : Forwarder σ) (exempt : Set Pit.EntryId) : Prop where
  pointers : Pit.PointerInv s.pit
  readable : ∀ p P, s.pit.entries p = some P → Readable P
  bound : ∀ p k id, s.held p k = some id → id < s.nextEvent
  inj : ∀ p k q l id, s.held p k = some id → s.held q l = some id → p = q ∧ k = l
  pending : ∀ id tm, (id, tm) ∈ s.events → s.Stored tm.entry ∧ s.held tm.entry tm.kind = some id
  armed : ∀ p, s.Stored p → p ∉ exempt → ∃ id tm, (id, tm) ∈ s.events ∧ tm.entry = p

variable {X : Set Pit.EntryId}

/-- The invariant holds at the beginning. -/
theorem timerInv_create (cs : σ) : TimerInv (create cs) ∅ := by
  refine ⟨Pit.pointerInv_create 1024, ?_, ?_, ?_, ?_, ?_⟩
  · intro p P hP
    cases hP
  · intro p k id h
    cases h
  · intro p k q l id h
    cases h
  · intro id tm h
    cases h
  · rintro p ⟨P, hP, -⟩
    cases hP

section

variable (h : TimerInv s X)

include h

/-- More entries may lack a timer. -/
theorem TimerInv.mono {Y : Set Pit.EntryId} (hXY : X ⊆ Y) : TimerInv s Y :=
  ⟨h.pointers, h.readable, h.bound, h.inj, h.pending,
    fun p hp hY => h.armed p hp fun hX => hY (hXY hX)⟩

/-- The invariant is about the stored entries and their timers. -/
theorem TimerInv.congr (hptr : Pit.PointerInv s'.pit)
    (hread : ∀ p P, s'.pit.entries p = some P → Readable P) (hheld : s'.held = s.held)
    (hstored : ∀ p, s'.Stored p ↔ s.Stored p) (hevents : s'.events = s.events)
    (hnext : s'.nextEvent = s.nextEvent) : TimerInv s' X := by
  refine ⟨hptr, hread, ?_, ?_, ?_, ?_⟩
  · rw [hheld, hnext]
    exact h.bound
  · rw [hheld]
    exact h.inj
  · intro id tm hmem
    rw [hevents] at hmem
    rw [hheld, hstored]
    exact h.pending id tm hmem
  · intro p hp hX
    rw [hevents]
    exact h.armed p ((hstored p).mp hp) hX

/-- A change in place that leaves the timers. -/
theorem TimerInv.modifyEntry (p : Pit.EntryId) {f : Pit.Entry → Pit.Entry}
    (hptr : ∀ P, (f P).nameTreeEntry = P.nameTreeEntry)
    (htimer : ∀ P k, timerOf (f P) k = timerOf P k)
    (hread : ∀ P, Readable P → Readable (f P)) : TimerInv (s.modifyEntry p f) X := by
  have hself : (s.modifyEntry p f).pit.entries p = (s.pit.entries p).map f :=
    Pit.entries_modify_self s.pit p f
  have hother : ∀ {q}, q ≠ p → (s.modifyEntry p f).pit.entries q = s.pit.entries q :=
    fun hq => Pit.entries_modify_of_ne s.pit f hq
  refine h.congr (h.pointers.modify p hptr) ?_ ?_ (stored_modifyEntry hptr) rfl rfl
  · grind [Option.map_eq_some_iff, h.readable]
  · grind [held]

/-- The invariant is about the PIT and the events. -/
theorem TimerInv.of_eq (hpit : s'.pit = s.pit)
    (hevents : s'.events = s.events) (hnext : s'.nextEvent = s.nextEvent) : TimerInv s' X := by
  refine h.congr (by rw [hpit]; exact h.pointers) (by rw [hpit]; exact h.readable) ?_ ?_
    hevents hnext
  all_goals grind [held, Stored]

/-- Both timers of an entry are cancelled. -/
theorem TimerInv.mem_events_cancelTimers (p : Pit.EntryId) {id : ℕ} :
    (id, tm) ∈ (s.cancelTimers p).events ↔ (id, tm) ∈ s.events ∧ tm.entry ≠ p := by
  have hmem : (id, tm) ∈ (s.cancelTimers p).events ↔ (id, tm) ∈ s.events ∧
      some id ≠ s.held p .unsatisfy ∧ some id ≠ s.held p .straggler := by
    unfold cancelTimers cancel
    simp only [List.mem_filter, decide_eq_true_eq, and_assoc]
    rfl
  rw [hmem]
  constructor
  · rintro ⟨hev, hun, hst⟩
    refine ⟨hev, ?_⟩
    rintro rfl
    obtain ⟨-, hheld⟩ := h.pending id tm hev
    cases hk : tm.kind with
    | unsatisfy => exact hun (by rw [← hheld, hk])
    | straggler => exact hst (by rw [← hheld, hk])
  · rintro ⟨hev, hne⟩
    obtain ⟨-, hheld⟩ := h.pending id tm hev
    grind [h.inj]

/-- An entry whose timers are cancelled may lack one. -/
theorem TimerInv.cancelTimers (p : Pit.EntryId) : TimerInv (s.cancelTimers p) (insert p X) := by
  refine ⟨h.pointers, h.readable, h.bound, h.inj, ?_, ?_⟩
  · intro id tm hmem
    exact h.pending id tm ((h.mem_events_cancelTimers p).mp hmem).1
  · intro q hq hX
    have hqp : q ≠ p := fun hqp => hX (Or.inl hqp)
    obtain ⟨id, tm, hev, htm⟩ := h.armed q hq fun hqX => hX (Or.inr hqX)
    exact ⟨id, tm, (h.mem_events_cancelTimers p).mpr ⟨hev, by rw [htm]; exact hqp⟩, htm⟩

/-- A stored entry gets a timer. -/
theorem TimerInv.schedule (hstored : s.Stored tm.entry) :
    TimerInv (s.schedule tm) (X \ {tm.entry}) := by
  have hself := held_schedule_self hstored
  have hother : ∀ p k, ¬ (p = tm.entry ∧ k = tm.kind) → (s.schedule tm).held p k = s.held p k :=
    fun p k hne => held_schedule_of_ne hne
  have hmem : ∀ {e}, e ∈ (s.schedule tm).events ↔
      e = (s.nextEvent, tm) ∨ e ∈ s.events ∧ some e.1 ≠ s.held tm.entry tm.kind := by
    grind [schedule, cancel]
  have hstored' : ∀ p, (s.schedule tm).Stored p ↔ s.Stored p := stored_congr (core_schedule tm)
  refine ⟨h.pointers.modify tm.entry fun P => nameTreeEntry_setTimerOf P _ _, ?_, ?_, ?_, ?_, ?_⟩
  · intro p P hP r hr
    have hcore : s.core p = some P.core := by
      rw [← core_schedule tm, core, hP]
      rfl
    obtain ⟨P₀, hP₀, heq⟩ := Option.map_eq_some_iff.mp hcore
    have hrecords : P₀.inRecords = P.inRecords := congrArg Pit.Core.inRecords heq
    rw [← hrecords] at hr
    exact h.readable p P₀ hP₀ r hr
  · intro p k id hid
    by_cases hslot : p = tm.entry ∧ k = tm.kind
    · obtain ⟨rfl, rfl⟩ := hslot
      rw [hself] at hid
      cases hid
      exact Nat.lt_succ_self _
    · rw [hother p k hslot] at hid
      exact (h.bound p k id hid).trans (Nat.lt_succ_self _)
  · -- the new id is larger than every id held before
    intro p k q l id hp hq
    by_cases hps : p = tm.entry ∧ k = tm.kind
    · by_cases hqs : q = tm.entry ∧ l = tm.kind
      · exact ⟨hps.1.trans hqs.1.symm, hps.2.trans hqs.2.symm⟩
      · rw [hps.1, hps.2, hself] at hp
        rw [hother q l hqs] at hq
        cases hp
        exact absurd (h.bound q l _ hq) (lt_irrefl _)
    rw [hother p k hps] at hp
    by_cases hqs : q = tm.entry ∧ l = tm.kind
    · rw [hqs.1, hqs.2, hself] at hq
      cases hq
      exact absurd (h.bound p k _ hp) (lt_irrefl _)
    · rw [hother q l hqs] at hq
      exact h.inj p k q l id hp hq
  · grind [h.pending]
  · grind [h.armed, h.pending, h.inj]

end

/-- A new timer ends the exception for its entry. -/
theorem TimerInv.schedule_of_insert (tm : Timer) (h : TimerInv s (insert tm.entry X))
    (hstored : s.Stored tm.entry) : TimerInv (s.schedule tm) X :=
  (h.schedule hstored).mono fun _ hq => hq.1.resolve_left hq.2

end IcnDemo.Forwarder
