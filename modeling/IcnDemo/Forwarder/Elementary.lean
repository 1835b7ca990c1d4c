import IcnDemo.Forwarder.Frame

/-!
# Events as elementary steps

Between two operations on the name tree, a pipeline changes the records of one PIT entry at a
time, emits an output, or does something that concerns neither (timers, dead nonce list, content
store, faces).  `Inert` lists these steps with what has been checked before each of them.  An
event is a sequence of such steps with at most one operation on the name tree, which `step_cases`
names.  Properties of records and outputs follow from one look at each constructor.
-/

namespace IcnDemo.Forwarder

open Relation

variable {σ : Type} {env : Env σ} {s : Forwarder σ}

/-- A step that leaves the name tree alone, and with it which entries are in the table. -/
inductive Inert (env : Env σ) : Forwarder σ → Forwarder σ → Prop
  /-- Neither records nor outputs change. -/
  | quiet {s s' : Forwarder σ} (hcore : s'.core = s.core)
      (htree : s'.pit.nameTree = s.pit.nameTree) (hnext : s'.pit.nextEntry = s.pit.nextEntry)
      (hlog : s'.log = s.log) : Inert env s s'
  /-- An incoming Interest leaves an in-record. -/
  | inRecord {s : Forwarder σ} {p : Pit.EntryId} {P : Pit.Entry} {inFace : FaceRef} {i : Interest}
      {nonce : UInt32} (now : ℤ) (hP : s.pit.entries p = some P)
      (hsame : Name.SameValues i.name P.interest.name) (hnonce : i.getNonce = some nonce)
      (hscope : isViolatingLocalhost env inFace i.name = false) :
      Inert env s (s.modifyEntry p fun P => P.insertOrUpdateInRecord inFace i nonce now)
  /-- An Interest goes out and leaves an out-record. -/
  | outRecord {s : Forwarder σ} {p : Pit.EntryId} {P : Pit.Entry} {outFace : FaceRef}
      {r : Pit.InRecord} {i : Interest} (nonce : UInt32) (now : ℤ) (hP : s.pit.entries p = some P)
      (hvalid : s.faceIds outFace ≠ 0) (hscope : violatesScope env P outFace = false)
      (hr : r ∈ P.inRecords) (hname : i.name = r.interest.name) :
      Inert env s ((s.modifyEntry p fun P => P.insertOrUpdateOutRecord outFace i nonce now).emit
        (.sendInterest outFace P i))
  /-- A Nack goes out and takes an in-record with it. -/
  | outNack {s : Forwarder σ} {p : Pit.EntryId} {P : Pit.Entry} {outFace : FaceRef}
      {r : Pit.InRecord} (reason : ℕ) (hP : s.pit.entries p = some P) (hr : r ∈ P.inRecords)
      (hface : r.face = outFace) :
      Inert env s ((s.modifyEntry p fun P => P.deleteInRecord outFace).emit
        (.sendNack outFace r.interest reason))
  /-- A Data goes out. -/
  | outData {s : Forwarder σ} {outFace : FaceRef} {d : Data} (hvalid : s.faceIds outFace ≠ 0)
      (hscope : isViolatingLocalhost env outFace d.name = false) :
      Inert env s (s.emit (.sendData outFace d))
  /-- A Data enters the content store. -/
  | cache {s : Forwarder σ} {inFace : FaceRef} {d : Data}
      (hscope : isViolatingLocalhost env inFace d.name = false) :
      Inert env s (s.emit (.cacheData inFace d))
  /-- An entry is satisfied by a Data from a face. -/
  | satisfy (s : Forwarder σ) (p : Pit.EntryId) (inFace : FaceRef) :
      Inert env s (s.modifyEntry p fun P => P.deleteInRecords.deleteOutRecord inFace)
  /-- A Nack is recorded. -/
  | incomingNack (s : Forwarder σ) (p : Pit.EntryId) (inFace : FaceRef) (reason : ℕ) :
      Inert env s (s.modifyEntry p fun P => setIncomingNack P inFace reason)

/-- A sequence of such steps. -/
def Inerts (env : Env σ) : Forwarder σ → Forwarder σ → Prop :=
  ReflTransGen (Inert env)

/-- No change at all. -/
theorem Inerts.refl (env : Env σ) (s : Forwarder σ) : Inerts env s s :=
  ReflTransGen.refl

/-- One more change. -/
theorem Inerts.tail {s₁ s₂ s₃ : Forwarder σ} (h : Inerts env s₁ s₂) (h' : Inert env s₂ s₃) :
    Inerts env s₁ s₃ :=
  ReflTransGen.tail h h'

/-- Changes after changes. -/
theorem Inerts.trans {s₁ s₂ s₃ : Forwarder σ} (h : Inerts env s₁ s₂) (h' : Inerts env s₂ s₃) :
    Inerts env s₁ s₃ :=
  ReflTransGen.trans h h'

/-- What each elementary change preserves holds in the end. -/
theorem Inerts.invariant {I : Forwarder σ → Prop} (hstep : ∀ s s', I s → Inert env s s' → I s')
    {s s' : Forwarder σ} (h : Inerts env s s') (hs : I s) : I s' := by
  induction h with
  | refl => exact hs
  | tail _ hlast ih => exact hstep _ _ ih hlast

/-! ### Quiet steps -/

/-- Cancelling a timer is quiet. -/
theorem quiet_cancel (s : Forwarder σ) (id : Option ℕ) : Inert env s (s.cancel id) :=
  .quiet rfl rfl rfl rfl

/-- Cancelling both timers is quiet. -/
theorem quiet_cancelTimers (s : Forwarder σ) (p : Pit.EntryId) : Inert env s (s.cancelTimers p) :=
  .quiet rfl rfl rfl rfl

/-- Setting the unsatisfy timer is quiet. -/
theorem quiet_setUnsatisfyTimer (s : Forwarder σ) (p : Pit.EntryId) :
    Inert env s (s.setUnsatisfyTimer p) :=
  .quiet (core_setUnsatisfyTimer p) rfl rfl rfl

/-- Setting the straggler timer is quiet. -/
theorem quiet_setStragglerTimer (s : Forwarder σ) (p : Pit.EntryId) (isSatisfied : Bool)
    (fresh : ℤ) : Inert env s (s.setStragglerTimer p isSatisfied fresh) :=
  .quiet (core_setStragglerTimer p isSatisfied fresh) rfl rfl rfl

/-- The dead nonce list is quiet. -/
theorem quiet_insertDeadNonceList (s : Forwarder σ) (P : Pit.Entry) (isSatisfied : Bool)
    (fresh : ℤ) (upstream : Option FaceRef) :
    Inert env s (s.insertDeadNonceList P isSatisfied fresh upstream) := by
  obtain ⟨dnl, heq⟩ := insertDeadNonceList_eq s P isSatisfied fresh upstream
  rw [heq]
  exact .quiet rfl rfl rfl rfl

/-! ### Strategies -/

/-- An action, in elementary changes. -/
theorem inerts_act (env : Env σ) (now : ℤ) (s : Forwarder σ) (a : Action) :
    Inerts env s (act env now s a).state := by
  have hact := acted_act env now s a
  generalize (act env now s a).state = s' at hact ⊢
  cases hact with
  | nothing => exact Inerts.refl env s
  | sent nonce hP hvalid hscope hr hname =>
    exact (Inerts.refl env s).tail (.outRecord nonce now hP hvalid hscope hr hname)
  | rejected =>
    exact ((Inerts.refl env s).tail (quiet_cancelTimers s _)).tail
      (quiet_setStragglerTimer _ _ false (-1))
  | nacked reason hP hr hface => exact (Inerts.refl env s).tail (.outNack reason hP hr hface)

/-- A callback, in elementary changes. -/
theorem inerts_dispatchToStrategy (env : Env σ) (now : ℤ) (s : Forwarder σ) (acts : List Action) :
    Inerts env s (dispatchToStrategy env now s acts).state :=
  dispatchToStrategy_invariant (fun s' a h => h.trans (inerts_act env now s' a)) (Inerts.refl env s)

/-! ### Incoming Interests -/

/-- Outgoing Data, in elementary changes. -/
theorem inerts_onOutgoingData (env : Env σ) (s : Forwarder σ) (d : Data) (outFace : FaceRef) :
    Inerts env s (onOutgoingData env s d outFace) := by
  rcases onOutgoingData_cases env s d outFace with heq | ⟨hvalid, hscope, heq⟩
  · rw [heq]
    exact Inerts.refl env s
  · rw [heq]
    exact (Inerts.refl env s).tail (.outData hvalid hscope)

variable {inFace : FaceRef} {p : Pit.EntryId} {P : Pit.Entry} {i : Interest}

section

variable {nonce : UInt32} (now : ℤ) (acts : List Action) (hP : s.pit.entries p = some P)
  (hsame : Name.SameValues i.name P.interest.name) (hnonce : i.getNonce = some nonce)
  (hscope : isViolatingLocalhost env inFace i.name = false)

include hP hsame hnonce hscope

/-- A miss in the content store, in elementary changes. -/
theorem inerts_onContentStoreMiss :
    Inerts env s (onContentStoreMiss env s inFace p i nonce now acts).state := by
  have hrecord := (Inerts.refl env s).tail (.inRecord now hP hsame hnonce hscope)
  exact (hrecord.tail (quiet_setUnsatisfyTimer _ p)).trans
    (inerts_dispatchToStrategy env now _ acts)

/-- An Interest that is not a duplicate, in elementary changes. -/
theorem inerts_processInterest :
    Inerts env s (processInterest env s inFace p P i nonce now acts).state := by
  unfold processInterest
  split_ifs
  · exact Inerts.refl env s
  · have hfind : Inerts env s { s with cs := (env.csFind s.cs i).1 } :=
      (Inerts.refl env s).tail (.quiet rfl rfl rfl rfl)
    simp only
    split
    · exact (hfind.tail (quiet_setStragglerTimer _ p true _)).trans
        (inerts_onOutgoingData env _ _ inFace)
    · exact hfind.trans (inerts_onContentStoreMiss now acts hP hsame hnonce hscope)
  · exact inerts_onContentStoreMiss now acts hP hsame hnonce hscope

end

/-- The PIT entry of an Interest has its name. -/
theorem sameValues_of_insert {pit : Pit} (hp : (pit.insert i).2.1 = some p)
    (hP : (pit.insert i).1.entries p = some P) : Name.SameValues i.name P.interest.name := by
  unfold Pit.insert at hp hP
  rcases Pit.findOrInsert_outcome pit i true with ⟨e, E, q, -, -, hsame, h⟩ | ⟨-, e, h⟩ | h
  · rw [h] at hp hP
    cases hp
    have hP' : pit.entries p = some P := hP
    simp only [Pit.sameInterest, hP', Bool.and_eq_true] at hsame
    exact (Name.equals_iff.mp hsame.1).symm
  · rw [h] at hp hP
    cases hp
    cases hP.symm.trans (Pit.entries_insertAt_self _ i e)
    exact rfl
  · rw [h] at hp
    cases hp

/-- An incoming Interest: a PIT entry, then elementary changes. -/
theorem onIncomingInterest_cases (env : Env σ) (s : Forwarder σ) (inFace : FaceRef) (i : Interest)
    (now : ℤ) (acts : List Action) :
    (onIncomingInterest env s inFace i now acts).state = s ∨
      isViolatingLocalhost env inFace i.name = false ∧
      Inerts env { s with pit := (s.pit.insert i).1 }
        (onIncomingInterest env s inFace i now acts).state := by
  unfold onIncomingInterest
  split_ifs with hviol
  · exact Or.inl rfl
  have hscope : isViolatingLocalhost env inFace i.name = false := by simpa using hviol
  refine Or.inr ⟨hscope, ?_⟩
  simp only
  cases hbind : (s.pit.insert i).2.1.bind fun p =>
      ((s.pit.insert i).1.entries p).map fun P => (p, P) with
  | none => exact Inerts.refl env _
  | some q =>
    obtain ⟨p, P⟩ := q
    obtain ⟨hp, hP⟩ := Pit.eq_some_of_bind_map hbind
    simp only
    rcases hnonce : i.getNonce with _ | nonce
    · exact Inerts.refl env _
    simp only
    split_ifs
    · exact Inerts.refl env _
    · have hcancel := (Inerts.refl env { s with pit := (s.pit.insert i).1 }).tail
        (quiet_cancelTimers _ p)
      exact hcancel.trans (inerts_processInterest now acts hP (sameValues_of_insert hp hP)
        hnonce hscope)

/-! ### Incoming Data -/

/-- `markSatisfied`, in elementary changes. -/
theorem inerts_markSatisfied (s : Forwarder σ) (inFace : FaceRef) (d : Data) (p : Pit.EntryId) :
    Inerts env s (s.markSatisfied inFace d p) := by
  unfold markSatisfied
  split
  · exact Inerts.refl env s
  · rename_i P _
    exact (((Inerts.refl env s).tail (quiet_insertDeadNonceList s P true _ (some inFace))).tail
      (.satisfy _ p inFace)).tail (quiet_setStragglerTimer _ p true _)

/-- Caching, in elementary changes. -/
theorem inerts_csInsert (s : Forwarder σ) {d : Data} (isUnsolicited : Bool)
    (hscope : isViolatingLocalhost env inFace d.name = false) :
    Inerts env s (csInsert env s inFace d isUnsolicited) := by
  unfold csInsert
  split_ifs
  · exact Inerts.refl env s
  · exact ((Inerts.refl env s).tail (.cache hscope)).tail (.quiet rfl rfl rfl rfl)

variable (env s)

/-- Incoming Data, in elementary changes. -/
theorem inerts_onIncomingData (inFace : FaceRef) (d : Data) (now : ℤ)
    (acts : Pit.EntryId → List Action) :
    Inerts env s (onIncomingData env s inFace d now acts).state := by
  unfold onIncomingData
  split_ifs with hviol
  · exact Inerts.refl env s
  have hscope : isViolatingLocalhost env inFace d.name = false := by simpa using hviol
  simp only
  split_ifs
  · grind [onDataUnsolicited, inerts_csInsert, Inerts.refl]
  refine Result.andThen_invariant ?_ ?_
  · exact satisfyEntries_invariant (fun s' p h => h.tail (quiet_cancelTimers s' p))
      (fun p s' h => h.trans (inerts_dispatchToStrategy env now s' (acts p)))
      (fun s' p h => h.trans (inerts_markSatisfied s' inFace d p))
      (inerts_csInsert s false hscope)
  intro s' h
  simp only
  generalize List.filter _ _ = faces
  induction faces generalizing s' with
  | nil => exact h
  | cons g faces ih => exact ih _ (h.trans (inerts_onOutgoingData env s' d g))

/-! ### Incoming Nacks and timers -/

/-- An incoming Nack: a lookup in the PIT, then elementary changes. -/
theorem onIncomingNack_cases (inFace : FaceRef) (i : Interest) (reason : ℕ) (now : ℤ)
    (acts : List Action) :
    (onIncomingNack env s inFace i reason now acts).state = s ∨ env.linkType inFace ≠ .multiAccess ∧
      Inerts env { s with pit := (s.pit.find i).1 }
        (onIncomingNack env s inFace i reason now acts).state := by
  unfold onIncomingNack
  split_ifs with hlink
  · exact Or.inl rfl
  refine Or.inr ⟨hlink, ?_⟩
  simp only
  split
  · exact Inerts.refl env _
  split
  · exact Inerts.refl env _
  split
  · exact Inerts.refl env _
  · split_ifs
    · exact Inerts.refl env _
    · exact ((Inerts.refl env _).tail (.incomingNack _ _ inFace reason)).trans
        (inerts_dispatchToStrategy env now _ acts)

/-- The end of an entry: elementary changes, then perhaps the erasure. -/
theorem onInterestFinalize_cases (p : Pit.EntryId) (isSatisfied : Bool) (fresh : ℤ) :
    Inerts env s (s.onInterestFinalize p isSatisfied fresh).state ∨
      ∃ s' pit, Inerts env s s' ∧ s'.pit.erase p = some pit ∧
        (s.onInterestFinalize p isSatisfied fresh).state = { s' with pit := pit } := by
  unfold onInterestFinalize
  split
  · exact Or.inl (Inerts.refl env s)
  rename_i P _
  have hcancel : Inerts env s ((s.insertDeadNonceList P isSatisfied fresh none).cancelTimers p) :=
    ((Inerts.refl env s).tail (quiet_insertDeadNonceList s P isSatisfied fresh none)).tail
      (quiet_cancelTimers _ p)
  grind

/-- A timer: elementary changes, then perhaps the erasure. -/
theorem onTimer_cases (id : ℕ) (now : ℤ) (acts : List Action) :
    Inerts env s (onTimer env s id now acts).state ∨
      ∃ tm s' pit, s.events.find? (fun e => e.1 == id) = some (id, tm) ∧ Inerts env s s' ∧
        s'.pit.erase tm.entry = some pit ∧
        (onTimer env s id now acts).state = { s' with pit := pit } := by
  unfold onTimer
  cases hfind : s.events.find? fun e => e.1 == id with
  | none => exact Or.inl (Inerts.refl env s)
  | some e =>
    obtain ⟨id', tm⟩ := e
    have hid : id' = id := by simpa using List.find?_some hfind
    subst hid
    have hcancel : Inerts env s (s.cancel (some id')) :=
      (Inerts.refl env s).tail (quiet_cancel s (some id'))
    cases tm with
    | unsatisfy p =>
      have hcall := hcancel.trans (inerts_dispatchToStrategy env now _ acts)
      simp only [onInterestUnsatisfied]
      by_cases hok : (dispatchToStrategy env now (s.cancel (some id')) acts).signal = .ok
      · rw [Result.andThen_ok hok]
        rcases onInterestFinalize_cases env
          (dispatchToStrategy env now (s.cancel (some id')) acts).state p false (-1) with
          hin | ⟨s', pit, hin, herase, heq⟩
        · exact Or.inl (hcall.trans hin)
        · exact Or.inr ⟨_, s', pit, rfl, hcall.trans hin, herase, heq⟩
      · rw [Result.andThen_of_ne hok]
        exact Or.inl hcall
    | straggler p isSatisfied fresh =>
      rcases onInterestFinalize_cases env (s.cancel (some id')) p isSatisfied fresh with
        hin | ⟨s', pit, hin, herase, heq⟩
      · exact Or.inl (hcancel.trans hin)
      · exact Or.inr ⟨_, s', pit, rfl, hcancel.trans hin, herase, heq⟩

/-! ### Events -/

/-- Every event, in elementary changes and at most one change of the table. -/
theorem step_cases (ev : Event) :
    Inerts env s (step env s ev).state ∨ (∃ inFace i now acts, ev = .interest inFace i now acts ∧
        isViolatingLocalhost env inFace i.name = false ∧
        Inerts env { s with pit := (s.pit.insert i).1 } (step env s ev).state) ∨
      (∃ inFace i reason now acts, ev = .nack inFace i reason now acts ∧
        env.linkType inFace ≠ .multiAccess ∧
        Inerts env { s with pit := (s.pit.find i).1 } (step env s ev).state) ∨
      (∃ id now acts tm s' pit, ev = .timer id now acts ∧
        s.events.find? (fun e => e.1 == id) = some (id, tm) ∧ Inerts env s s' ∧
        s'.pit.erase tm.entry = some pit ∧
        (step env s ev).state = { s' with pit := pit }) ∨
      ∃ op, ev = .table op ∧ (step env s ev).state =
        { s with pit := s.pit.withNameTree (op.apply s.pit.nameTree) } := by
  have hquiet : ∀ {s' : Forwarder σ}, s'.pit = s.pit → s'.log = s.log → Inerts env s s' := by
    intro s' hpit hlog
    refine (Inerts.refl env s).tail (.quiet ?_ (by rw [hpit]) (by rw [hpit]) hlog)
    unfold core
    rw [hpit]
  cases ev with
  | interest inFace i now acts => grind [onIncomingInterest_cases, step]
  | data inFace d now acts => exact Or.inl (inerts_onIncomingData env s inFace d now acts)
  | nack inFace i reason now acts => grind [onIncomingNack_cases, step]
  | timer id now acts =>
    rcases onTimer_cases env s id now acts with hin | ⟨tm, s', pit, hev, hin, herase, heq⟩
    · exact Or.inl hin
    · exact Or.inr (Or.inr (Or.inr (Or.inl ⟨id, now, acts, tm, s', pit, rfl, hev, hin, herase,
        heq⟩)))
  | strategy now acts => exact Or.inl (inerts_dispatchToStrategy env now s acts)
  | addFace face => grind [step]
  | removeFace face | markDeadNonceList | adjustDeadNonceList => exact Or.inl (hquiet rfl rfl)
  | table op => exact Or.inr (Or.inr (Or.inr (Or.inr ⟨op, rfl, rfl⟩)))

end IcnDemo.Forwarder
