import IcnDemo.Forwarder.Defs
import IcnDemo.Pit.Pointers

/-!
# What the pipelines change

The core of a PIT entry is everything but its timers.  Timers, the dead nonce list and the content
store leave the cores alone, and the actions of a strategy are described by three inversion
lemmas, one for each action.  `dispatchToStrategy_invariant` and `run_invariant` are the two
induction rules used for every property of callbacks and runs.
-/

namespace IcnDemo

/-- A PIT entry without its timers. -/
structure Pit.Core where
  interest : Interest
  inRecords : List Pit.InRecord
  outRecords : List Pit.OutRecord
  nameTreeEntry : Option NameTree.EntryId
deriving DecidableEq

/-- The core of a PIT entry. -/
def Pit.Entry.core (P : Pit.Entry) : Pit.Core :=
  ⟨P.interest, P.inRecords, P.outRecords, P.nameTreeEntry⟩

namespace Forwarder

variable {σ : Type} {env : Env σ} {s : Forwarder σ}

/-- The core of the PIT entry at an address. -/
def core (s : Forwarder σ) (p : Pit.EntryId) : Option Pit.Core :=
  (s.pit.entries p).map Pit.Entry.core

/-- Faces of non-local scope and a content store that stays empty. -/
def plainEnv : Env Unit :=
  ⟨fun _ => .nonLocal, fun _ => .pointToPoint, fun cs _ => (cs, none), fun cs _ _ => cs⟩

/-! ### Cores and log -/

/-- A change in place leaves the other cores. -/
theorem core_modifyEntry_of_ne {p q : Pit.EntryId} (f : Pit.Entry → Pit.Entry) (h : q ≠ p) :
    (s.modifyEntry p f).core q = s.core q := by
  unfold core modifyEntry
  rw [Pit.entries_modify_of_ne s.pit f h]

variable (p : Pit.EntryId)

/-- The core after a change in place. -/
theorem core_modifyEntry_self (f : Pit.Entry → Pit.Entry) :
    (s.modifyEntry p f).core p = (s.pit.entries p).map fun P => (f P).core := by
  unfold core modifyEntry
  rw [Pit.entries_modify_self, Option.map_map]
  rfl

/-- A change that is not about the core. -/
theorem core_modifyEntry {p : Pit.EntryId} {f : Pit.Entry → Pit.Entry}
    (hf : ∀ P, (f P).core = P.core) : (s.modifyEntry p f).core = s.core := by
  funext q
  by_cases hqp : q = p
  · subst hqp
    rw [core_modifyEntry_self]
    simp only [hf]
    rfl
  · exact core_modifyEntry_of_ne f hqp

@[simp] theorem core_cancelTimers : (s.cancelTimers p).core = s.core := rfl

@[simp] theorem pit_cancelTimers : (s.cancelTimers p).pit = s.pit := rfl

@[simp] theorem log_modifyEntry (f : Pit.Entry → Pit.Entry) : (s.modifyEntry p f).log = s.log := rfl

@[simp] theorem log_emit (out : Output) : (s.emit out).log = s.log ++ [out] := rfl

/-- The unsatisfy timer is not in the core. -/
@[simp] theorem core_setUnsatisfyTimer : (s.setUnsatisfyTimer p).core = s.core :=
  core_modifyEntry (s := s)
    (f := fun P => { P with unsatisfyTimer := some s.nextEvent }) fun _ => rfl

/-- The straggler timer is not in the core. -/
@[simp] theorem core_setStragglerTimer (isSatisfied : Bool) (fresh : ℤ) :
    (s.setStragglerTimer p isSatisfied fresh).core = s.core :=
  core_modifyEntry (s := s)
    (f := fun P => { P with stragglerTimer := some s.nextEvent }) fun _ => rfl

/-- Only the dead nonce list changes. -/
theorem insertDeadNonceList_eq (s : Forwarder σ) (P : Pit.Entry) (isSatisfied : Bool) (fresh : ℤ)
    (upstream : Option FaceRef) :
    ∃ dnl, s.insertDeadNonceList P isSatisfied fresh upstream =
      { s with deadNonceList := dnl } := by
  unfold insertDeadNonceList
  split_ifs
  · exact ⟨s.deadNonceList, rfl⟩
  · exact ⟨_, rfl⟩

/-- Caching leaves the PIT alone. -/
theorem pit_csInsert (s : Forwarder σ) (inFace : FaceRef) (d : Data) (isUnsolicited : Bool) :
    (csInsert env s inFace d isUnsolicited).pit = s.pit := by
  unfold csInsert
  split_ifs <;> rfl

/-! ### Outgoing packets -/

/-- The picked record is one of those given. -/
theorem mem_of_pickInRecord {outFace : FaceRef} {rs : List Pit.InRecord} {r : Pit.InRecord}
    (h : pickInRecord outFace rs = some r) : r ∈ rs := by
  rcases rs with _ | ⟨a, rs⟩
  · cases h
  have hfold : ∀ (rs : List Pit.InRecord) (a : Pit.InRecord),
      rs.foldl (fun a b => if comparePickInterest outFace a b then b else a) a ∈ a :: rs := by
    intro rs
    induction rs with
    | nil =>
      intro a
      exact List.mem_singleton.mpr rfl
    | cons b rs ih => grind
  cases h
  exact hfold rs a

/-- What `onOutgoingInterest` can do: nothing, or send an Interest of an in-record to a valid face
the scope allows. -/
theorem onOutgoingInterest_cases (env : Env σ) (s : Forwarder σ) (p : Pit.EntryId)
    (outFace : FaceRef) (newNonce : Option UInt32) (now : ℤ) :
    (onOutgoingInterest env s p outFace newNonce now).state = s ∨
      ∃ P r i nonce, s.pit.entries p = some P ∧ s.faceIds outFace ≠ 0 ∧
        violatesScope env P outFace = false ∧ r ∈ P.inRecords ∧ i.name = r.interest.name ∧
        onOutgoingInterest env s p outFace newNonce now =
          ⟨(s.modifyEntry p fun P => P.insertOrUpdateOutRecord outFace i nonce now).emit
            (.sendInterest outFace P i), .ok⟩ := by
  unfold onOutgoingInterest
  rcases hP : s.pit.entries p with _ | P
  · exact Or.inl rfl
  simp only
  split_ifs with hid hscope
  · exact Or.inl rfl
  · exact Or.inl rfl
  · cases hpick : pickInRecord outFace P.inRecords with
    | none => exact Or.inl rfl
    | some r =>
      -- with or without a new nonce, the packet has the name of the picked record
      have hsend : ∀ i : Interest, i.name = r.interest.name →
          (s.sendPicked p P outFace i now).state = s ∨ ∃ nonce, s.sendPicked p P outFace i now =
              ⟨(s.modifyEntry p fun P => P.insertOrUpdateOutRecord outFace i nonce now).emit
                (.sendInterest outFace P i), .ok⟩ := by
        intro i _
        unfold sendPicked
        cases i.getNonce with
        | none => exact Or.inl rfl
        | some nonce => exact Or.inr ⟨nonce, rfl⟩
      have hscope' : violatesScope env P outFace = false := by simpa using hscope
      have hmem := mem_of_pickInRecord hpick
      cases newNonce with
      | none =>
        rcases hsend r.interest rfl with h | ⟨nonce, h⟩
        · exact Or.inl h
        · exact Or.inr ⟨P, r, r.interest, nonce, rfl, hid, hscope', hmem, rfl, h⟩
      | some n =>
        rcases hsend (r.interest.setNonce n) rfl with h | ⟨nonce, h⟩
        · exact Or.inl h
        · exact Or.inr ⟨P, r, r.interest.setNonce n, nonce, rfl, hid, hscope', hmem, rfl, h⟩

/-- What `onOutgoingNack` can do: nothing, or answer and delete an in-record of a valid face. -/
theorem onOutgoingNack_cases (env : Env σ) (s : Forwarder σ) (p : Pit.EntryId) (outFace : FaceRef)
    (reason : ℕ) :
    onOutgoingNack env s p outFace reason = s ∨
      ∃ P r, s.pit.entries p = some P ∧ r ∈ P.inRecords ∧ r.face = outFace ∧
        onOutgoingNack env s p outFace reason =
          (s.modifyEntry p fun P => P.deleteInRecord outFace).emit
            (.sendNack outFace r.interest reason) := by
  unfold onOutgoingNack
  rcases hP : s.pit.entries p with _ | P
  · exact Or.inl rfl
  rcases hr : P.getInRecord outFace with _ | r
  · refine Or.inl ?_
    simp only [hr]
    split_ifs <;> rfl
  have hface : r.face = outFace := by simpa using List.find?_some hr
  simp only [hr]
  split_ifs
  · exact Or.inl rfl
  · exact Or.inl rfl
  · exact Or.inr ⟨P, r, rfl, List.mem_of_find?_eq_some hr, hface, rfl⟩

/-- What `onInterestReject` can do: nothing, or start the straggler timer. -/
theorem onInterestReject_cases (s : Forwarder σ) (p : Pit.EntryId) (now : ℤ) :
    s.onInterestReject p now = s ∨
      ∃ P, s.pit.entries p = some P ∧ P.hasUnexpiredOutRecords now = false ∧
        s.onInterestReject p now = (s.cancelTimers p).setStragglerTimer p false (-1) := by
  grind [onInterestReject]

/-- What an action can do to the state. -/
inductive Acted (env : Env σ) (now : ℤ) (s : Forwarder σ) (p : Pit.EntryId) : Forwarder σ → Prop
  | nothing : Acted env now s p s
  | sent {P : Pit.Entry} {outFace : FaceRef} {r : Pit.InRecord} {i : Interest} (nonce : UInt32)
      (hP : s.pit.entries p = some P) (hvalid : s.faceIds outFace ≠ 0)
      (hscope : violatesScope env P outFace = false) (hr : r ∈ P.inRecords)
      (hname : i.name = r.interest.name) : Acted env now s p
        ((s.modifyEntry p fun P => P.insertOrUpdateOutRecord outFace i nonce now).emit
          (.sendInterest outFace P i))
  | rejected : Acted env now s p ((s.cancelTimers p).setStragglerTimer p false (-1))
  | nacked {P : Pit.Entry} {outFace : FaceRef} {r : Pit.InRecord} (reason : ℕ)
      (hP : s.pit.entries p = some P) (hr : r ∈ P.inRecords) (hface : r.face = outFace) :
      Acted env now s p ((s.modifyEntry p fun P => P.deleteInRecord outFace).emit
        (.sendNack outFace r.interest reason))

/-- Every action does one of the four things. -/
theorem acted_act (env : Env σ) (now : ℤ) (s : Forwarder σ) (a : Action) :
    Acted env now s a.entry (act env now s a).state := by
  cases a with
  | sendInterest p outFace newNonce =>
    rcases onOutgoingInterest_cases env s p outFace newNonce now with
      heq | ⟨P, r, i, nonce, hP, hvalid, hscope, hr, hname, heq⟩
    · rw [act, heq]
      exact .nothing
    · rw [act, heq]
      exact .sent nonce hP hvalid hscope hr hname
  | rejectPendingInterest p =>
    rcases onInterestReject_cases s p now with heq | ⟨P, -, -, heq⟩
    · rw [act, heq]
      exact .nothing
    · rw [act, heq]
      exact .rejected
  | sendNack p outFace reason =>
    rcases onOutgoingNack_cases env s p outFace reason with heq | ⟨P, r, hP, hr, hface, heq⟩
    · rw [act, heq]
      exact .nothing
    · rw [act, heq]
      exact .nacked reason hP hr hface

/-- Host-local names are for local faces. -/
theorem isViolatingLocalhost_eq_false {face : FaceRef} {n : Name} :
    isViolatingLocalhost env face n = false ↔
      (env.scope face = .nonLocal → Name.isPrefixOf localhostName n = false) := by
  grind [isViolatingLocalhost]

/-- What `onOutgoingData` can do: nothing, or send to a valid face that the scope allows. -/
theorem onOutgoingData_cases (env : Env σ) (s : Forwarder σ) (d : Data) (outFace : FaceRef) :
    onOutgoingData env s d outFace = s ∨
      s.faceIds outFace ≠ 0 ∧ isViolatingLocalhost env outFace d.name = false ∧
        onOutgoingData env s d outFace = s.emit (.sendData outFace d) := by grind [onOutgoingData]

/-! ### Induction rules -/

variable {I : Forwarder σ → Prop} {f : Forwarder σ → Result σ} {r : Result σ} {D : Daemon σ}

/-- Going on after a normal end. -/
theorem Result.andThen_ok (h : r.signal = .ok) : r.andThen f = f r.state := by
  unfold Result.andThen
  rw [h]

/-- There is no going on after another end. -/
theorem Result.andThen_of_ne (h : r.signal ≠ .ok) : r.andThen f = r := by
  unfold Result.andThen
  split
  · exact absurd ‹_› h
  · rfl

/-- What both parts preserve holds in the end. -/
theorem Result.andThen_invariant (hr : I r.state) (hf : ∀ s, I s → I (f s).state) :
    I (r.andThen f).state := by
  by_cases h : r.signal = .ok
  · rw [Result.andThen_ok h]
    exact hf _ hr
  · rw [Result.andThen_of_ne h]
    exact hr

/-- What every action preserves holds after a callback. -/
theorem dispatchToStrategy_invariant {now : ℤ}
    (hstep : ∀ s a, I s → I (act env now s a).state) {acts : List Action} :
    ∀ {s : Forwarder σ}, I s → I (dispatchToStrategy env now s acts).state := by
  induction acts with
  | nil =>
    intro s hs
    exact hs
  | cons a acts ih =>
    intro s hs
    exact Result.andThen_invariant (hstep s a hs) fun _ h => ih h

/-- What cancelling, callbacks and the end of an iteration preserve holds after the loop over the
matching entries. -/
theorem satisfyEntries_invariant {inFace : FaceRef} {d : Data} {now : ℤ}
    {acts : Pit.EntryId → List Action} (hcancel : ∀ s p, I s → I (s.cancelTimers p))
    (hcall : ∀ p s, I s →
      I (D.callback (.beforeSatisfyInterest p inFace d) now s (acts p)).state)
    (hmark : ∀ s p, I s → I (s.markSatisfied inFace d p)) {ps : List Pit.EntryId} :
    ∀ {s : Forwarder σ} {pending : List FaceRef}, I s →
      I (satisfyEntries D inFace d now acts ps s pending).1.state := by
  induction ps with
  | nil =>
    intro s pending hs
    exact hs
  | cons p ps ih =>
    intro s pending hs
    unfold satisfyEntries
    cases s.pit.entries p with
    | none => exact ih hs
    | some P =>
      have hcalled := hcall p (s.cancelTimers p) (hcancel s p hs)
      dsimp only
      split
      · exact ih (hmark _ p hcalled)
      · exact hcalled

/-- What every event preserves holds after a run. -/
theorem run_invariant (hstep : ∀ s ev, I s → I (step D s ev).state)
    {evs : List Event} : ∀ {s : Forwarder σ}, I s → I (run D s evs).state := by
  induction evs with
  | nil =>
    intro s hs
    exact hs
  | cons ev evs ih => grind [run]

end Forwarder

end IcnDemo
