import IcnDemo.Forwarder.Elementary

/-!
# Scope control

No packet under `/localhost` leaves through a face of non-local scope, and an Interest under
`/localhop` leaves through one only while its PIT entry has an in-record of a local face.

The Nack pipeline checks nothing itself.  It is safe because an in-record of a non-local face
never exists in a PIT entry under `/localhost` (`ScopeInv.records`), and only
`insertOrUpdateInRecord` could break that.
-/

namespace IcnDemo

/-- Prefixes are by value. -/
theorem Name.isPrefixOf_congr {n m : Name} (h : SameValues n m) (x : Name) :
    isPrefixOf x n = isPrefixOf x m := by
  rw [Bool.eq_iff_iff, isPrefixOf_iff, isPrefixOf_iff, h]

namespace Forwarder

variable {σ : Type} {env : Env σ} {s : Forwarder σ}

/-- An output the scope rules allow. -/
def Permitted (env : Env σ) : Output → Prop
  | .sendInterest outFace P i => env.scope outFace = .nonLocal →
      Name.isPrefixOf localhostName i.name = false ∧
        (Name.isPrefixOf localhopName i.name = true → hasLocalInRecord env P = true)
  | .sendData outFace d => env.scope outFace = .nonLocal →
      Name.isPrefixOf localhostName d.name = false
  | .sendNack outFace i _ => env.scope outFace = .nonLocal →
      Name.isPrefixOf localhostName i.name = false
  | .cacheData inFace d => env.scope inFace = .nonLocal →
      Name.isPrefixOf localhostName d.name = false

/-- The in-records of a PIT entry carry its name, and none of a non-local face is under
`/localhost`. -/
def RecordsOk (env : Env σ) (P : Pit.Entry) : Prop :=
  ∀ r ∈ P.inRecords, Name.SameValues r.interest.name P.interest.name ∧
    (env.scope r.face = .nonLocal → Name.isPrefixOf localhostName P.interest.name = false)

/-- The invariant behind scope control. -/
structure ScopeInv (env : Env σ) (s : Forwarder σ) : Prop where
  records : ∀ p P, s.pit.entries p = some P → RecordsOk env P
  log : ∀ out ∈ s.log, Permitted env out

/-- No entry gains an in-record or changes its Interest. -/
def NoNewInRecords (pit pit' : Pit) : Prop :=
  ∀ p P', pit'.entries p = some P' → P'.inRecords = [] ∨
    ∃ P, pit.entries p = some P ∧ P'.interest = P.interest ∧ P'.inRecords ⊆ P.inRecords

/-- The same entries have no new in-records. -/
theorem NoNewInRecords.of_entries_eq {pit pit' : Pit} (h : pit'.entries = pit.entries) :
    NoNewInRecords pit pit' := by
  intro p P' hP'
  rw [h] at hP'
  exact Or.inr ⟨P', hP', rfl, List.Subset.refl _⟩

/-- A change in place that adds no in-record. -/
theorem noNewInRecords_modify (pit : Pit) (p : Pit.EntryId) {f : Pit.Entry → Pit.Entry}
    (hf : ∀ P, (f P).interest = P.interest ∧ (f P).inRecords ⊆ P.inRecords) :
    NoNewInRecords pit (pit.modify p f) := by
  intro q Q' hQ'
  by_cases hqp : q = p
  · subst hqp
    rw [Pit.entries_modify_self] at hQ'
    grind [Option.map_eq_some_iff]
  · grind [Pit.entries_modify_of_ne]

/-- A new entry has no in-records. -/
theorem noNewInRecords_findOrInsert (pit : Pit) (i : Interest) (allowInsert : Bool) :
    NoNewInRecords pit (pit.findOrInsert i allowInsert).1 := by
  rcases Pit.entries_findOrInsert pit i allowInsert with h | ⟨e, h⟩
  · exact NoNewInRecords.of_entries_eq h
  intro p P' hP'
  rw [h] at hP'
  by_cases hnew : p = pit.nextEntry
  · rw [hnew, Function.update_self] at hP'
    cases hP'
    exact Or.inl rfl
  · rw [Function.update_of_ne hnew] at hP'
    exact Or.inr ⟨P', hP', rfl, List.Subset.refl _⟩

/-- An erasure adds no in-record. -/
theorem noNewInRecords_erase {pit pit' : Pit} {p : Pit.EntryId} (h : pit.erase p = some pit') :
    NoNewInRecords pit pit' := by
  intro q Q' hQ'
  rw [Pit.entries_erase h] at hQ'
  refine noNewInRecords_modify pit p ?_ q Q' hQ'
  exact fun P => ⟨rfl, List.Subset.refl _⟩

/-- Without new in-records the invariant stays. -/
theorem ScopeInv.of_noNewInRecords (h : ScopeInv env s) {s' : Forwarder σ}
    (hrec : NoNewInRecords s.pit s'.pit) (hlog : s'.log = s.log) : ScopeInv env s' := by
  refine ⟨?_, by rw [hlog]; exact h.log⟩
  intro p P' hP' r hr
  rcases hrec p P' hP' with hnil | ⟨P, hP, hint, hsub⟩
  · rw [hnil] at hr
    cases hr
  · rw [hint]
    exact h.records p P hP r (hsub hr)

/-- A permitted output keeps the invariant. -/
theorem ScopeInv.emit (h : ScopeInv env s) {out : Output} (hout : Permitted env out) :
    ScopeInv env (s.emit out) := by
  refine ⟨h.records, ?_⟩
  intro o ho
  rcases List.mem_append.mp ho with ho | ho
  · exact h.log o ho
  · rw [List.mem_singleton.mp ho]
    exact hout

/-- A change in place that adds no in-record keeps the invariant. -/
theorem ScopeInv.modifyEntry (h : ScopeInv env s) (p : Pit.EntryId) {f : Pit.Entry → Pit.Entry}
    (hf : ∀ P, (f P).interest = P.interest ∧ (f P).inRecords ⊆ P.inRecords) :
    ScopeInv env (s.modifyEntry p f) :=
  h.of_noNewInRecords (noNewInRecords_modify s.pit p hf) rfl

/-! ### Steps -/

variable {P : Pit.Entry} {i : Interest}

/-- An in-record is old or that of the Interest. -/
theorem mem_insertOrUpdateInRecord {face : FaceRef} {nonce : UInt32} {now : ℤ} {r : Pit.InRecord}
    (h : r ∈ (P.insertOrUpdateInRecord face i nonce now).inRecords) :
    r ∈ P.inRecords ∨ (r.face = face ∧ r.interest = i) := by
  unfold Pit.Entry.insertOrUpdateInRecord at h
  grind

/-- The Interest of an entry stays. -/
theorem interest_insertOrUpdateInRecord (P : Pit.Entry) (face : FaceRef) (i : Interest)
    (nonce : UInt32) (now : ℤ) :
    (P.insertOrUpdateInRecord face i nonce now).interest = P.interest := by
  unfold Pit.Entry.insertOrUpdateInRecord
  simp only
  split <;> rfl

/-- An in-record from a face that the scope allows keeps the invariant. -/
theorem ScopeInv.insertInRecord (h : ScopeInv env s) {p : Pit.EntryId}
    (hP : s.pit.entries p = some P) {inFace : FaceRef} (nonce : UInt32) (now : ℤ)
    (hsame : Name.SameValues i.name P.interest.name)
    (hscope : isViolatingLocalhost env inFace i.name = false) :
    ScopeInv env (s.modifyEntry p fun P => P.insertOrUpdateInRecord inFace i nonce now) := by
  refine ⟨?_, h.log⟩
  intro q Q hQ r hr
  unfold Forwarder.modifyEntry at hQ
  by_cases hqp : q = p
  · subst hqp
    rw [Pit.entries_modify_self, hP] at hQ
    cases hQ
    rw [interest_insertOrUpdateInRecord]
    rcases mem_insertOrUpdateInRecord hr with hr | ⟨hface, hint⟩
    · exact h.records q P hP r hr
    · rw [hface, hint, ← Name.isPrefixOf_congr hsame]
      exact ⟨hsame, isViolatingLocalhost_eq_false.mp hscope⟩
  · rw [Pit.entries_modify_of_ne s.pit _ hqp] at hQ
    exact h.records q Q hQ r hr

/-- An out-record leaves the Interest and the in-records. -/
theorem interest_insertOrUpdateOutRecord (P : Pit.Entry) (face : FaceRef) (i : Interest)
    (nonce : UInt32) (now : ℤ) :
    (P.insertOrUpdateOutRecord face i nonce now).interest = P.interest ∧
      (P.insertOrUpdateOutRecord face i nonce now).inRecords ⊆ P.inRecords := by
  unfold Pit.Entry.insertOrUpdateOutRecord
  simp only
  split <;> exact ⟨rfl, List.Subset.refl _⟩

/-- An Interest that does not violate the scope is permitted. -/
theorem permitted_sendInterest {outFace : FaceRef} (hsame : Name.SameValues i.name P.interest.name)
    (hscope : violatesScope env P outFace = false) : Permitted env (.sendInterest outFace P i) := by
  intro hnl
  grind [Name.isPrefixOf_congr, violatesScope]

/-- An elementary change keeps the invariant. -/
theorem ScopeInv.inert {s s' : Forwarder σ} (h : ScopeInv env s) (hstep : Inert env s s') :
    ScopeInv env s' := by
  cases hstep with
  | quiet hcore _ _ hlog =>
    refine h.of_noNewInRecords ?_ hlog
    intro p P' hP'
    have hc : s.core p = some P'.core := by
      rw [← hcore, core, hP']
      rfl
    obtain ⟨P, hP, heq⟩ := Option.map_eq_some_iff.mp hc
    have hint : P.interest = P'.interest := congrArg Pit.Core.interest heq
    have hin : P.inRecords = P'.inRecords := congrArg Pit.Core.inRecords heq
    exact Or.inr ⟨P, hP, hint.symm, by rw [hin]; exact List.Subset.refl _⟩
  | inRecord now hP hsame _ hscope => exact h.insertInRecord hP _ now hsame hscope
  | outRecord nonce now hP _ hscope hr hname =>
    refine (h.modifyEntry _ fun P => interest_insertOrUpdateOutRecord P _ _ nonce now).emit ?_
    refine permitted_sendInterest ?_ hscope
    rw [hname]
    exact (h.records _ _ hP _ hr).1
  | @outNack p P outFace r reason hP hr hface =>
    -- the record itself shows that the face may have the Nack
    have hmod := h.modifyEntry p (f := fun P => P.deleteInRecord outFace)
      fun P => ⟨rfl, List.eraseP_sublist.subset⟩
    refine hmod.emit ?_
    intro hnl
    obtain ⟨hsame, hlocal⟩ := h.records _ _ hP _ hr
    rw [Name.isPrefixOf_congr hsame]
    exact hlocal (by rw [hface]; exact hnl)
  | outData _ hscope | cache hscope => exact h.emit (isViolatingLocalhost_eq_false.mp hscope)
  | satisfy p inFace => exact h.modifyEntry p fun P => ⟨rfl, List.nil_subset _⟩
  | incomingNack p inFace reason => grind [h.modifyEntry, setIncomingNack]

/-- Elementary changes keep the invariant. -/
theorem ScopeInv.inerts {s s' : Forwarder σ} (h : ScopeInv env s) (hsteps : Inerts env s s') :
    ScopeInv env s' :=
  hsteps.invariant (fun _ _ hs hstep => hs.inert hstep) h

/-- Every event keeps the invariant. -/
theorem ScopeInv.step (h : ScopeInv env s) (ev : Event) : ScopeInv env (step env s ev).state := by
  rcases step_cases env s ev with hin | ⟨inFace, i, now, acts, -, -, hin⟩ |
    ⟨inFace, i, reason, now, acts, -, -, hin⟩ |
    ⟨id, now, acts, tm, s', pit, -, -, hin, herase, heq⟩ |
    ⟨op, -, heq⟩
  · exact h.inerts hin
  · refine ScopeInv.inerts ?_ hin
    exact h.of_noNewInRecords (noNewInRecords_findOrInsert s.pit i true) rfl
  · refine ScopeInv.inerts ?_ hin
    exact h.of_noNewInRecords (noNewInRecords_findOrInsert s.pit i false) rfl
  · rw [heq]
    exact (h.inerts hin).of_noNewInRecords (noNewInRecords_erase herase) rfl
  · rw [heq]
    exact h.of_noNewInRecords (NoNewInRecords.of_entries_eq rfl) rfl

/-! ### The result -/

/-- The invariant holds at the beginning. -/
theorem scopeInv_create (env : Env σ) (cs : σ) : ScopeInv env (create cs) := by
  refine ⟨?_, ?_⟩
  · intro p P hP
    cases hP
  · intro out hout
    cases hout

/-- In every run from empty tables, whatever the strategies do, everything that is sent or cached
respects the scope of the faces. -/
theorem outputs_permitted (env : Env σ) (cs : σ) (evs : List Event) :
    ∀ out ∈ (run env (create cs) evs).state.log, Permitted env out :=
  (run_invariant (fun _ ev hs => hs.step ev) (scopeInv_create env cs)).log

/-- An Interest for `/A` between two faces, which is sent. -/
theorem outputs_permitted_forwarded : ∃ out ∈ (run plainEnv (create ()) [.addFace 1, .addFace 2,
      .interest 1 (Pit.plainInterest [.generic [0x41]]) 0
        [.sendInterest 0 2 none]]).state.log, Permitted plainEnv out := by
  have hsent : (run plainEnv (create ()) [.addFace 1, .addFace 2,
      .interest 1 (Pit.plainInterest [.generic [0x41]]) 0
        [.sendInterest 0 2 none]]).state.log.isEmpty = false := by
    decide +kernel
  obtain ⟨out, hout⟩ := List.exists_mem_of_ne_nil _ (List.isEmpty_eq_false_iff.mp hsent)
  exact ⟨out, hout, outputs_permitted plainEnv () _ out hout⟩

end Forwarder

end IcnDemo
