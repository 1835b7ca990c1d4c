import IcnDemo.Forwarder.Elementary
import IcnDemo.Lib.Keyed

/-!
# Pipelines with hooks

Some properties of the forwarder are about what has happened before, or about memory that its tables
share with other objects.  Here the pipelines run with a memory of any type beside the content
store.  It is changed by the callbacks: when an in-record has been written, when a Nack has been
accepted, and by the actions of the strategies, which may also change the state in a way of their
own.  Hooks that leave the actions as they are (`Passive`) only watch the pipelines of an
environment.

A property of the records and of the memory is proved for all runs by one look at each place where
records change (`Keeps`).
-/

namespace IcnDemo

/-- The records of a PIT entry. -/
structure Pit.Records where
  inRecords : List Pit.InRecord
  outRecords : List Pit.OutRecord
deriving DecidableEq

/-- The records of a PIT entry. -/
def Pit.Entry.records (P : Pit.Entry) : Pit.Records :=
  ⟨P.inRecords, P.outRecords⟩

namespace Forwarder

variable {σ γ : Type}

/-- The records of the PIT entry at an address. -/
def records (s : Forwarder σ) (p : Pit.EntryId) : Option Pit.Records :=
  (s.pit.entries p).map Pit.Entry.records

/-- The state and the memory at the end of a pipeline, and how it ended. -/
structure Observed (σ γ : Type) where
  state : Forwarder σ
  memory : γ
  signal : Signal

/-- The state and the end of a pipeline, without the memory. -/
def Observed.result (r : Observed σ γ) : Result σ :=
  ⟨r.state, r.signal⟩

/-- What is done beside the pipelines.  The state is the one in which the record is written already.
-/
structure Hooks (σ γ : Type) where
  act : ℤ → Forwarder σ → γ → Action → Observed σ γ
  received : Forwarder σ → Pit.EntryId → FaceRef → Interest → γ → γ
  nacked : ℤ → Forwarder σ → Pit.EntryId → FaceRef → UInt32 → γ → γ

/-! ### A memory beside the content store -/

/-- The state with a memory beside the content store. -/
def beside (s : Forwarder σ) (m : γ) : Forwarder (σ × γ) :=
  { s with cs := (s.cs, m) }

/-- The state without the memory. -/
def forget (s : Forwarder (σ × γ)) : Forwarder σ :=
  { s with cs := s.cs.1 }

/-- The memory of a state. -/
def memory (s : Forwarder (σ × γ)) : γ :=
  s.cs.2

/-- The environment with a memory that it does not change. -/
def Env.beside (γ : Type) (env : Env σ) : Env (σ × γ) where
  scope := env.scope
  linkType := env.linkType
  csFind cs i := (((env.csFind cs.1 i).1, cs.2), (env.csFind cs.1 i).2)
  csInsert cs d isUnsolicited := (env.csInsert cs.1 d isUnsolicited, cs.2)

/-- The end of a pipeline, without the memory. -/
def Result.forget (r : Result (σ × γ)) : Result σ :=
  ⟨r.state.forget, r.signal⟩

section Forget

variable (s : Forwarder (σ × γ)) (p : Pit.EntryId)

@[simp] theorem pit_forget : s.forget.pit = s.pit := rfl

@[simp] theorem events_forget : s.forget.events = s.events := rfl

variable (env : Env σ)

/-- Data is sent as without the memory. -/
theorem forget_onOutgoingData (d : Data) (outFace : FaceRef) :
    (onOutgoingData (env.beside γ) s d outFace).forget = onOutgoingData env s.forget d outFace := by
  unfold onOutgoingData
  change forget (if s.faceIds outFace = 0 then s
    else if isViolatingLocalhost env outFace d.name = true then s else _)
      = if s.faceIds outFace = 0 then _ else _
  split_ifs <;> rfl

/-- Data is cached as without the memory. -/
theorem forget_csInsert (inFace : FaceRef) (d : Data) (isUnsolicited : Bool) :
    (csInsert (env.beside γ) s inFace d isUnsolicited).forget
      = csInsert env s.forget inFace d isUnsolicited := by
  unfold csInsert
  split_ifs <;> rfl

/-- Unsolicited Data is treated as without the memory. -/
theorem forget_onDataUnsolicited (inFace : FaceRef) (d : Data) :
    (onDataUnsolicited (env.beside γ) s inFace d).forget
      = onDataUnsolicited env s.forget inFace d := by
  unfold onDataUnsolicited
  change forget (if env.scope inFace = .local then _ else s) = _
  split_ifs
  · exact forget_csInsert s env inFace d true
  · rfl

/-- Nonces die as without the memory. -/
theorem forget_insertDeadNonceList (P : Pit.Entry) (isSatisfied : Bool) (fresh : ℤ)
    (upstream : Option FaceRef) : (s.insertDeadNonceList P isSatisfied fresh upstream).forget
      = s.forget.insertDeadNonceList P isSatisfied fresh upstream := by
  unfold insertDeadNonceList
  split_ifs <;> rfl

/-- A PIT entry is finalized as without the memory. -/
theorem forget_onInterestFinalize (isSatisfied : Bool) (fresh : ℤ) :
    (s.onInterestFinalize p isSatisfied fresh).forget
      = s.forget.onInterestFinalize p isSatisfied fresh := by
  unfold onInterestFinalize
  rw [pit_forget]
  rcases s.pit.entries p with _ | P
  · rfl
  dsimp only
  rw [← forget_insertDeadNonceList]
  generalize s.insertDeadNonceList P isSatisfied fresh none = s'
  simp only [pit_cancelTimers, pit_forget]
  rcases s'.pit.erase p with _ | pit <;> rfl

/-- A PIT entry is satisfied as without the memory. -/
theorem forget_markSatisfied (inFace : FaceRef) (d : Data) :
    (s.markSatisfied inFace d p).forget = s.forget.markSatisfied inFace d p := by
  unfold markSatisfied
  rw [pit_forget]
  rcases s.pit.entries p with _ | P
  · rfl
  dsimp only
  rw [← forget_insertDeadNonceList]
  rfl

end Forget

namespace Hooks

variable (h : Hooks σ γ) (env : Env σ)

/-- A callback: the actions in order. -/
def dispatchToStrategy (now : ℤ) (s : Forwarder (σ × γ)) : List Action → Result (σ × γ)
  | [] => ⟨s, .ok⟩
  | a :: acts =>
      let r := h.act now s.forget s.memory a
      Result.andThen ⟨r.state.beside r.memory, r.signal⟩ fun s => dispatchToStrategy now s acts

/-- The memory when the callback of a trigger begins. -/
def atTrigger (now : ℤ) (s : Forwarder (σ × γ)) : Trigger → γ
  | .afterReceiveInterest inFace i p => h.received s.forget p inFace i s.memory
  | .afterReceiveNack inFace i _ p =>
      match i.getNonce with
      | none => s.memory
      | some nonce => h.nacked now s.forget p inFace nonce s.memory
  | _ => s.memory

/-- The pipelines run with the memory. -/
def daemon : Daemon (σ × γ) where
  toEnv := env.beside γ
  callback trigger now s acts :=
    h.dispatchToStrategy now (s.forget.beside (h.atTrigger now s trigger)) acts

/-- A run. -/
def run (s : Forwarder σ) (m : γ) (evs : List Event) : Observed σ γ :=
  let r := Forwarder.run (h.daemon env) (s.beside m) evs
  ⟨r.state.forget, r.state.memory, r.signal⟩

/-! ### Hooks that only watch -/

/-- The actions are those of the forwarder. -/
def Passive : Prop :=
  ∀ now s m a, (h.act now s m a).result = Forwarder.act env now s a

/-- What follows after a normal end is forgotten with it. -/
theorem forget_andThen {r : Result (σ × γ)} {f : Forwarder (σ × γ) → Result (σ × γ)}
    {g : Forwarder σ → Result σ} (hf : ∀ s, (f s).forget = g s.forget) :
    (r.andThen f).forget = r.forget.andThen g := by
  obtain ⟨s, signal⟩ := r
  rcases signal with _ | _ | _
  · exact hf s
  · rfl
  · rfl

section Passive

variable {h env} (hpassive : h.Passive env)

include hpassive

/-- A callback does what its actions do. -/
theorem forget_dispatchToStrategy (now : ℤ) (acts : List Action) (s : Forwarder (σ × γ)) :
    (h.dispatchToStrategy now s acts).forget
      = Forwarder.dispatchToStrategy env now s.forget acts := by
  induction acts generalizing s with
  | nil => rfl
  | cons a acts ih =>
    rw [dispatchToStrategy, Forwarder.dispatchToStrategy, ← hpassive now s.forget s.memory a]
    exact forget_andThen ih

/-- The callback of a trigger does what its actions do. -/
theorem forget_callback (trigger : Trigger) (now : ℤ) (acts : List Action)
    (s : Forwarder (σ × γ)) : ((h.daemon env).callback trigger now s acts).forget
      = Forwarder.dispatchToStrategy env now s.forget acts :=
  forget_dispatchToStrategy hpassive now acts _

variable {acts : List Action} {inFace : FaceRef} {now : ℤ} {i : Interest} (s : Forwarder (σ × γ))

/-- An Interest that is not a duplicate is processed as without the memory. -/
theorem forget_processInterest {p : Pit.EntryId} {P : Pit.Entry} {nonce : UInt32} :
    (processInterest (h.daemon env) s inFace p P i nonce now acts).forget
      = processInterest env s.forget inFace p P i nonce now acts := by
  unfold processInterest
  split_ifs
  · rfl
  · -- both lookups are that of the store without the memory
    have hbeside : ((h.daemon env).csFind s.cs i).2 = (env.csFind s.cs.1 i).2 := rfl
    have hforget : (env.csFind s.forget.cs i).2 = (env.csFind s.cs.1 i).2 := rfl
    simp only [hbeside, hforget]
    rcases (env.csFind s.cs.1 i).2 with _ | d
    · exact forget_callback hpassive _ now acts _
    · exact congrArg (Result.mk · .ok) (forget_onOutgoingData _ env d inFace)
  · exact forget_callback hpassive _ now acts _

/-- An incoming Interest is treated as without the memory. -/
theorem forget_onIncomingInterest :
    (onIncomingInterest (h.daemon env) s inFace i now acts).forget
      = onIncomingInterest env s.forget inFace i now acts := by
  unfold onIncomingInterest
  change Result.forget (if isViolatingLocalhost env inFace i.name = true then _ else _) = _
  split_ifs
  · rfl
  simp only [pit_forget]
  rcases (s.pit.insert i).2.1.bind fun p =>
    ((s.pit.insert i).1.entries p).map fun P => (p, P) with _ | ⟨p, P⟩
  · rfl
  rcases i.getNonce with _ | nonce
  · rfl
  change Result.forget (if s.hasDuplicateNonce P i nonce inFace = true then _ else _)
    = if s.hasDuplicateNonce P i nonce inFace = true then _ else _
  split_ifs
  · rfl
  · exact forget_processInterest hpassive _

/-- The matching entries are satisfied as without the memory. -/
theorem forget_satisfyEntries (inFace : FaceRef) (d : Data) (now : ℤ)
    (acts : Pit.EntryId → List Action) (ps : List Pit.EntryId) (s : Forwarder (σ × γ))
    (pending : List FaceRef) :
    (satisfyEntries (h.daemon env) inFace d now acts ps s pending).1.forget
        = (satisfyEntries env inFace d now acts ps s.forget pending).1 ∧
      (satisfyEntries (h.daemon env) inFace d now acts ps s pending).2
        = (satisfyEntries env inFace d now acts ps s.forget pending).2 := by
  induction ps generalizing s pending with
  | nil => exact ⟨rfl, rfl⟩
  | cons p ps ih =>
    unfold satisfyEntries
    rw [pit_forget]
    rcases s.pit.entries p with _ | P
    · exact ih s pending
    have hcall := forget_callback hpassive (.beforeSatisfyInterest p inFace d) now (acts p)
      (s.cancelTimers p)
    dsimp only
    change _ = Forwarder.dispatchToStrategy env now (s.forget.cancelTimers p) (acts p) at hcall
    rw [← hcall]
    generalize (h.daemon env).callback _ now _ (acts p) = r
    obtain ⟨s', signal⟩ := r
    rcases signal with _ | _ | _
    · dsimp only [Result.forget]
      rw [← forget_markSatisfied]
      exact ih _ _
    · exact ⟨rfl, rfl⟩
    · exact ⟨rfl, rfl⟩

/-- Incoming Data is treated as without the memory. -/
theorem forget_onIncomingData {d : Data} {acts : Pit.EntryId → List Action} :
    (onIncomingData (h.daemon env) s inFace d now acts).forget
      = onIncomingData env s.forget inFace d now acts := by
  unfold onIncomingData
  change Result.forget (if isViolatingLocalhost env inFace d.name = true then _ else _) = _
  split_ifs
  · rfl
  change Result.forget (if (s.pit.findAllDataMatches d).isEmpty = true then _ else _)
    = if (s.pit.findAllDataMatches d).isEmpty = true then _ else _
  split_ifs
  · exact congrArg (Result.mk · .ok) (forget_onDataUnsolicited s env inFace d)
  obtain ⟨hloop, hpending⟩ := forget_satisfyEntries hpassive inFace d now acts
    (s.pit.findAllDataMatches d) (csInsert (env.beside γ) s inFace d false) []
  rw [forget_csInsert] at hloop hpending
  simp only [pit_forget]
  rw [← hloop, ← hpending]
  refine forget_andThen fun s' => ?_
  exact congrArg (Result.mk · .ok)
    (List.foldl_hom forget fun s g => (forget_onOutgoingData s env d g).symm).symm

/-- An incoming Nack is treated as without the memory. -/
theorem forget_onIncomingNack {reason : ℕ} :
    (onIncomingNack (h.daemon env) s inFace i reason now acts).forget
      = onIncomingNack env s.forget inFace i reason now acts := by
  unfold onIncomingNack
  change Result.forget (if env.linkType inFace = .multiAccess then _ else _) = _
  split_ifs
  · rfl
  simp only [pit_forget]
  rcases (s.pit.find i).2.bind fun p =>
    ((s.pit.find i).1.entries p).map fun P => (p, P) with _ | ⟨p, P⟩
  · rfl
  dsimp only
  rcases P.getOutRecord inFace with _ | outRecord
  · rfl
  rcases i.getNonce with _ | nonce
  · rfl
  dsimp only
  split_ifs
  · rfl
  · exact forget_callback hpassive _ now acts _

/-- A timer fires as without the memory. -/
theorem forget_onTimer {id : ℕ} : (onTimer (h.daemon env) s id now acts).forget
      = onTimer env s.forget id now acts := by
  unfold onTimer
  rw [events_forget]
  rcases hfind : s.events.find? (fun e => e.1 == id) with _ | ⟨_, p | ⟨p, isSatisfied, fresh⟩⟩
  · simp only [hfind]
    rfl
  · simp only [hfind]
    have hcall := forget_callback hpassive (.beforeExpirePendingInterest p) now acts
      (s.cancel (some id))
    dsimp only [onInterestUnsatisfied]
    change _ = Forwarder.dispatchToStrategy env now (s.forget.cancel (some id)) acts at hcall
    rw [← hcall]
    exact forget_andThen fun s => forget_onInterestFinalize s p false (-1)
  · simp only [hfind]
    exact forget_onInterestFinalize _ p isSatisfied fresh

/-- An event does what it does without the memory. -/
theorem forget_step (ev : Event) (s : Forwarder (σ × γ)) :
    (step (h.daemon env) s ev).forget = step env s.forget ev := by
  cases ev with
  | interest => exact forget_onIncomingInterest hpassive s
  | data => exact forget_onIncomingData hpassive s
  | nack => exact forget_onIncomingNack hpassive s
  | timer => exact forget_onTimer hpassive s
  | strategy now acts => exact forget_callback hpassive .timer now acts s
  | addFace face =>
    unfold step
    change Result.forget (if s.faceIds face ≠ 0 then _ else _)
      = if s.faceIds face ≠ 0 then _ else _
    split_ifs <;> rfl
  | _ => rfl

/-- A run does what it does without the memory. -/
theorem result_run (evs : List Event) (s : Forwarder σ) (m : γ) :
    (h.run env s m evs).result = Forwarder.run env s evs := by
  change (Forwarder.run (h.daemon env) (s.beside m) evs).forget
    = Forwarder.run env (s.beside m).forget evs
  generalize s.beside m = s
  induction evs generalizing s with
  | nil => rfl
  | cons ev evs ih =>
    have hstep := forget_step hpassive ev s
    unfold Forwarder.run
    rw [← hstep]
    dsimp only [Result.forget]
    split_ifs
    · rfl
    · exact ih _

end Passive

/-! ### Properties of runs -/

/-- What the hooks do keeps a property of the records and the memory, and so does every other change
of records. -/
structure Keeps (I : (Pit.EntryId → Option Pit.Records) → γ → Prop) : Prop where
  act (now : ℤ) (s : Forwarder σ) (m : γ) (a : Action) (hs : I s.records m) :
    I (h.act now s m a).state.records (h.act now s m a).memory
  received (s : Forwarder σ) (m : γ) (p : Pit.EntryId) (P : Pit.Entry) (inFace : FaceRef)
    (i : Interest) (nonce : UInt32) (now : ℤ) (hs : I s.records m) (hP : s.pit.entries p = some P)
    (hnonce : i.getNonce = some nonce) (s' : Forwarder σ)
    (hs' : s'.records
      = (s.modifyEntry p fun P => P.insertOrUpdateInRecord inFace i nonce now).records) :
    I s'.records (h.received s' p inFace i m)
  nacked (s : Forwarder σ) (m : γ) (p : Pit.EntryId) (P : Pit.Entry) (inFace : FaceRef)
    (r : Pit.OutRecord) (reason : ℕ) (now : ℤ) (hs : I s.records m) (hP : s.pit.entries p = some P)
    (hr : P.getOutRecord inFace = some r) (s' : Forwarder σ)
    (hs' : s' = s.modifyEntry p fun P => setIncomingNack P inFace reason) :
    I s'.records (h.nacked now s' p inFace r.lastNonce m)
  satisfied (s : Forwarder σ) (m : γ) (p : Pit.EntryId) (inFace : FaceRef) (hs : I s.records m) :
    I (s.modifyEntry p fun P => P.deleteInRecords.deleteOutRecord inFace).records m
  inserted (R : Pit.EntryId → Option Pit.Records) (m : γ) (p : Pit.EntryId) (hs : I R m) :
    I (Function.update R p (some ⟨[], []⟩)) m

end Hooks

/-! ### Changes that leave the records alone -/

/-- The records are a part of the core. -/
theorem records_congr {s s' : Forwarder σ} (h : s'.core = s.core) : s'.records = s.records := by
  funext p
  have hmap : ∀ t : Forwarder σ, t.records p
      = (t.core p).map fun c => (⟨c.inRecords, c.outRecords⟩ : Pit.Records) := by
    intro t
    simp only [records, core, Option.map_map]
    rfl
  rw [hmap, hmap, h]

variable {s : Forwarder σ} {α : Type}

/-- Erasing an entry leaves the records of the object. -/
theorem records_erase {p : Pit.EntryId} {pit : Pit} (h : s.pit.erase p = some pit) :
    { s with pit := pit }.records = s.records := by
  funext q
  unfold records
  rw [Pit.entries_erase h]
  by_cases hq : q = p
  · subst hq
    rw [Pit.entries_modify_self, Option.map_map]
    rfl
  · rw [Pit.entries_modify_of_ne s.pit _ hq]

/-- A new entry has no records. -/
theorem records_findOrInsert (s : Forwarder σ) (i : Interest) (allowInsert : Bool) :
    { s with pit := (s.pit.findOrInsert i allowInsert).1 }.records = s.records ∨
      ∃ p, { s with pit := (s.pit.findOrInsert i allowInsert).1 }.records
        = Function.update s.records p (some ⟨[], []⟩) := by
  unfold records
  rcases Pit.entries_findOrInsert s.pit i allowInsert with h | ⟨e, h⟩
  · exact .inl (by rw [h])
  refine .inr ⟨s.pit.nextEntry, ?_⟩
  funext q
  rw [h]
  by_cases hq : q = s.pit.nextEntry
  · subst hq
    simp [Pit.newEntry, Pit.Entry.records]
  · simp [Function.update_of_ne hq]

/-- The end of an entry leaves all records. -/
theorem records_onInterestFinalize (s : Forwarder σ) (p : Pit.EntryId) (isSatisfied : Bool)
    (fresh : ℤ) : (s.onInterestFinalize p isSatisfied fresh).state.records = s.records := by
  unfold onInterestFinalize
  split
  · rfl
  rename_i P _
  obtain ⟨dnl, heq⟩ := insertDeadNonceList_eq s P isSatisfied fresh none
  rw [heq]
  dsimp only
  split
  · rfl
  · rename_i pit herase
    exact records_erase herase

/-- Outgoing Data leaves all records. -/
theorem records_onOutgoingData (env : Env σ) (s : Forwarder σ) (d : Data) (outFace : FaceRef) :
    (onOutgoingData env s d outFace).records = s.records := by
  rcases onOutgoingData_cases env s d outFace with heq | ⟨-, -, heq⟩
  · rw [heq]
  · rw [heq]
    rfl

/-- Caching leaves all records. -/
theorem records_csInsert (env : Env σ) (s : Forwarder σ) (inFace : FaceRef) (d : Data)
    (isUnsolicited : Bool) : (csInsert env s inFace d isUnsolicited).records = s.records := by
  unfold records
  rw [pit_csInsert]

/-! ### Changes of one entry -/

/-- The records after a change in place. -/
theorem records_modifyEntry_self {p : Pit.EntryId} {P : Pit.Entry} (hP : s.pit.entries p = some P)
    (f : Pit.Entry → Pit.Entry) : (s.modifyEntry p f).records p = some (f P).records := by
  unfold records modifyEntry
  rw [Pit.entries_modify_self, hP]
  rfl

/-- A change in place leaves the other records. -/
theorem records_modifyEntry_of_ne (s : Forwarder σ) {p q : Pit.EntryId} (f : Pit.Entry → Pit.Entry)
    (h : q ≠ p) : (s.modifyEntry p f).records q = s.records q := by
  unfold records modifyEntry
  rw [Pit.entries_modify_of_ne s.pit f h]

/-- A list in each entry, such as its out-records, gets no new elements. -/
def Shrinks {α : Type} (part : Pit.Records → List α) (R R' : Pit.EntryId → Option Pit.Records) :
    Prop :=
  ∀ p rs', R' p = some rs' → part rs' = [] ∨ ∃ rs, R p = some rs ∧ (part rs').Sublist (part rs)

/-- Nothing is added if nothing changes. -/
theorem Shrinks.refl (part : Pit.Records → List α)
    (R : Pit.EntryId → Option Pit.Records) : Shrinks part R R :=
  fun _ rs h => .inr ⟨rs, h, List.Sublist.refl _⟩

/-- A change in place that adds nothing. -/
theorem shrinks_modifyEntry (part : Pit.Records → List α) (p : Pit.EntryId)
    {f : Pit.Entry → Pit.Entry} (hf : ∀ P, (part (f P).records).Sublist (part P.records)) :
    Shrinks part s.records (s.modifyEntry p f).records := by
  intro q rs' hrs'
  by_cases hq : q = p
  · subst hq
    rcases hP : s.pit.entries q with _ | P
    · simp [records, modifyEntry, hP] at hrs'
    · grind [records_modifyEntry_self, records]
  · grind [records_modifyEntry_of_ne]

/-- A new entry adds nothing. -/
theorem shrinks_inserted {part : Pit.Records → List α} (hpart : part ⟨[], []⟩ = [])
    (R : Pit.EntryId → Option Pit.Records) (p : Pit.EntryId) :
    Shrinks part R (Function.update R p (some ⟨[], []⟩)) := by
  intro q rs hrs
  grind

/-! ### Changes that leave the memory alone -/

section Memory

variable (s : Forwarder (σ × γ))

/-- Outgoing Data leaves the memory. -/
theorem memory_onOutgoingData (env : Env σ) (d : Data) (outFace : FaceRef) :
    (onOutgoingData (env.beside γ) s d outFace).memory = s.memory := by
  rcases onOutgoingData_cases (env.beside γ) s d outFace with heq | ⟨-, -, heq⟩
  · rw [heq]
  · rw [heq]
    rfl

/-- Caching leaves the memory. -/
theorem memory_csInsert (env : Env σ) (inFace : FaceRef) (d : Data) (isUnsolicited : Bool) :
    (csInsert (env.beside γ) s inFace d isUnsolicited).memory = s.memory := by
  unfold csInsert
  split_ifs <;> rfl

/-- The end of an entry leaves the memory. -/
theorem memory_onInterestFinalize (p : Pit.EntryId) (isSatisfied : Bool) (fresh : ℤ) :
    (s.onInterestFinalize p isSatisfied fresh).state.memory = s.memory := by
  unfold onInterestFinalize
  split
  · rfl
  rename_i P _
  obtain ⟨dnl, heq⟩ := insertDeadNonceList_eq s P isSatisfied fresh none
  rw [heq]
  dsimp only
  split <;> rfl

end Memory

namespace Hooks

variable {h : Hooks σ γ} {env : Env σ} {I : (Pit.EntryId → Option Pit.Records) → γ → Prop}

/-- A property of the records and the memory of a state. -/
def Holds (I : (Pit.EntryId → Option Pit.Records) → γ → Prop) (s : Forwarder (σ × γ)) : Prop :=
  I s.records s.memory

/-- The property is not about anything else. -/
theorem Holds.congr {s s' : Forwarder (σ × γ)} (hs : Holds I s) (hrecords : s'.records = s.records)
    (hmemory : s'.memory = s.memory) : Holds I s' := by
  rw [Holds, hrecords, hmemory]
  exact hs

variable (hkeeps : h.Keeps I) {s : Forwarder (σ × γ)} {inFace : FaceRef} {acts : List Action}
  {now : ℤ} {i : Interest}

include hkeeps

/-- A callback keeps the property. -/
theorem keeps_dispatchToStrategy (now : ℤ) (acts : List Action) (hs : Holds I s) :
    Holds I (h.dispatchToStrategy now s acts).state := by
  induction acts generalizing s with
  | nil => exact hs
  | cons a acts ih =>
    exact Result.andThen_invariant (hkeeps.act now s.forget s.memory a hs) fun _ => ih

section

variable (hs : Holds I s)

include hs

/-- A miss in the content store keeps the property. -/
theorem keeps_onContentStoreMiss {p : Pit.EntryId} {P : Pit.Entry} {nonce : UInt32}
    (hP : s.pit.entries p = some P) (hnonce : i.getNonce = some nonce) :
    Holds I (onContentStoreMiss (h.daemon env) s inFace p i nonce now acts).state :=
  keeps_dispatchToStrategy hkeeps now acts <|
    hkeeps.received s.forget s.memory p P inFace i nonce now hs hP hnonce _
      (records_congr (core_setUnsatisfyTimer p))

/-- An Interest that is not a duplicate keeps the property. -/
theorem keeps_processInterest {p : Pit.EntryId} {P : Pit.Entry} {nonce : UInt32}
    (hP : s.pit.entries p = some P) (hnonce : i.getNonce = some nonce) :
    Holds I (processInterest (h.daemon env) s inFace p P i nonce now acts).state := by
  unfold processInterest
  split
  · split
    · exact hs
    dsimp only
    split
    · refine hs.congr ?_ (memory_onOutgoingData _ env _ inFace)
      exact (records_onOutgoingData _ _ _ inFace).trans
        (records_congr (core_setStragglerTimer p true _))
    · exact keeps_onContentStoreMiss hkeeps
        (s := { s with cs := (env.beside γ).csFind s.cs i |>.1 }) hs hP hnonce
  · exact keeps_onContentStoreMiss hkeeps hs hP hnonce

/-- A new entry keeps the property. -/
theorem keeps_findOrInsert (i : Interest) (allowInsert : Bool) :
    Holds I { s with pit := (s.pit.findOrInsert i allowInsert).1 } := by
  rcases records_findOrInsert s i allowInsert with heq | ⟨p, heq⟩
  · exact hs.congr heq rfl
  · rw [Holds, heq]
    exact hkeeps.inserted _ s.memory p hs

/-- An incoming Interest keeps the property. -/
theorem keeps_onIncomingInterest :
    Holds I (onIncomingInterest (h.daemon env) s inFace i now acts).state := by
  have hinsert : Holds I { s with pit := (s.pit.insert i).1 } := keeps_findOrInsert hkeeps hs i true
  unfold onIncomingInterest
  split
  · exact hs
  dsimp only
  rcases hfound : ((s.pit.insert i).2.1.bind fun p =>
    ((s.pit.insert i).1.entries p).map fun P => (p, P)) with _ | ⟨p, P⟩
  · exact hinsert
  obtain ⟨-, hP⟩ := Pit.eq_some_of_bind_map hfound
  rcases hnonce : i.getNonce with _ | nonce
  · exact hinsert
  dsimp only
  generalize hstate : { s with pit := (s.pit.insert i).1 } = s' at hinsert ⊢
  have hP' : s'.pit.entries p = some P := by rw [← hstate]; exact hP
  split
  · exact hinsert
  · exact keeps_processInterest hkeeps (s := s'.cancelTimers p) hinsert hP' hnonce

/-- `markSatisfied` keeps the property. -/
theorem keeps_markSatisfied (inFace : FaceRef) (d : Data) (p : Pit.EntryId) :
    Holds I (s.markSatisfied inFace d p) := by
  unfold markSatisfied
  split
  · exact hs
  rename_i P _
  obtain ⟨dnl, heq⟩ := insertDeadNonceList_eq s P true d.freshnessPeriod (some inFace)
  have hsatisfied : ∀ {s : Forwarder (σ × γ)}, Holds I s →
      Holds I (s.modifyEntry p fun P => P.deleteInRecords.deleteOutRecord inFace) :=
    fun {s} hs => hkeeps.satisfied s.forget s.memory p inFace hs
  rw [heq]
  exact (hsatisfied (s := { s with deadNonceList := dnl }) hs).congr
    (records_congr (core_setStragglerTimer p true _)) rfl

/-- Incoming Data keeps the property. -/
theorem keeps_onIncomingData {d : Data} {acts : Pit.EntryId → List Action} :
    Holds I (onIncomingData (h.daemon env) s inFace d now acts).state := by
  unfold onIncomingData
  split
  · exact hs
  dsimp only
  split
  · unfold onDataUnsolicited
    split
    · exact hs.congr (records_csInsert _ s inFace d true) (memory_csInsert s env inFace d true)
    · exact hs
  refine Result.andThen_invariant ?_ ?_
  · refine satisfyEntries_invariant (I := Holds I) (fun _ _ hs => hs)
      (fun p s hs => keeps_dispatchToStrategy hkeeps now (acts p) hs)
      (fun s p hs => keeps_markSatisfied hkeeps hs inFace d p) ?_
    exact hs.congr (records_csInsert _ s inFace d false) (memory_csInsert s env inFace d false)
  intro s hs
  dsimp only
  generalize List.filter _ _ = faces
  induction faces generalizing s with
  | nil => exact hs
  | cons g faces ih =>
    exact ih _ (hs.congr (records_onOutgoingData _ s d g) (memory_onOutgoingData s env d g))

/-- An incoming Nack keeps the property. -/
theorem keeps_onIncomingNack {reason : ℕ} :
    Holds I (onIncomingNack (h.daemon env) s inFace i reason now acts).state := by
  have hfind : Holds I { s with pit := (s.pit.find i).1 } := keeps_findOrInsert hkeeps hs i false
  unfold onIncomingNack
  split
  · exact hs
  dsimp only
  rcases hfound : ((s.pit.find i).2.bind fun p =>
    ((s.pit.find i).1.entries p).map fun P => (p, P)) with _ | ⟨p, P⟩
  · exact hfind
  obtain ⟨-, hP⟩ := Pit.eq_some_of_bind_map hfound
  dsimp only
  rcases hrecord : P.getOutRecord inFace with _ | r
  · exact hfind
  rcases hnonce : i.getNonce with _ | nonce
  · exact hfind
  dsimp only
  generalize hstate : { s with pit := (s.pit.find i).1 } = s' at hfind ⊢
  have hP' : s'.pit.entries p = some P := by rw [← hstate]; exact hP
  split
  · exact hfind
  · rename_i hsame
    obtain rfl : nonce = r.lastNonce := not_not.mp hsame
    refine keeps_dispatchToStrategy hkeeps now acts ?_
    rw [atTrigger, hnonce]
    exact hkeeps.nacked s'.forget s'.memory p P inFace r reason now hfind hP' hrecord _ rfl

/-- A timer keeps the property. -/
theorem keeps_onTimer {id : ℕ} : Holds I (onTimer (h.daemon env) s id now acts).state := by
  have hfinalize : ∀ {s : Forwarder (σ × γ)} (p : Pit.EntryId) (isSatisfied : Bool) (fresh : ℤ),
      Holds I s → Holds I (s.onInterestFinalize p isSatisfied fresh).state :=
    fun p isSatisfied fresh hs =>
      hs.congr (records_onInterestFinalize _ p isSatisfied fresh)
        (memory_onInterestFinalize _ p isSatisfied fresh)
  unfold onTimer
  split
  · exact hs
  · rename_i p _
    exact Result.andThen_invariant
      (keeps_dispatchToStrategy hkeeps now acts (s := s.cancel (some id)) hs)
      fun s hs => hfinalize p false (-1) hs
  · exact hfinalize _ _ _ hs

end

/-- Every event keeps the property. -/
theorem keeps_step (env : Env σ) (s : Forwarder (σ × γ)) (ev : Event) (hs : Holds I s) :
    Holds I (step (h.daemon env) s ev).state := by
  cases ev with
  | interest => exact keeps_onIncomingInterest hkeeps hs
  | data => exact keeps_onIncomingData hkeeps hs
  | nack => exact keeps_onIncomingNack hkeeps hs
  | timer => exact keeps_onTimer hkeeps hs
  | strategy now acts => exact keeps_dispatchToStrategy hkeeps now acts hs
  | addFace face =>
    unfold step
    dsimp only
    split
    · exact hs
    · exact hs
  | _ => exact hs

/-- A property that the hooks and all changes of records keep holds at the end of a run. -/
theorem keeps_run (env : Env σ) {s : Forwarder σ} {m : γ} (evs : List Event) (hs : I s.records m) :
    I (h.run env s m evs).state.records (h.run env s m evs).memory :=
  run_invariant (I := Holds I) (fun s ev => keeps_step hkeeps env s ev) (s := s.beside m) hs

end Hooks

end Forwarder

end IcnDemo
