import IcnDemo.Forwarder.Timers

/-!
# PIT timers along runs

The conditions under which each pipeline keeps the timer invariant, and the result: in a run whose
events meet them, after every event each entry in the table has a pending timer, each pending
timer belongs to an entry in the table, and firing it takes the entry out.
-/

namespace IcnDemo.Forwarder

open List Option Function

variable {σ : Type} {env : Env σ} {s : Forwarder σ} {X : Set Pit.EntryId}

/-! ### Strategies -/

/-- An action that does not reject an erased entry, nor fail the assertion that there is an
in-record to send. -/
def ActionOk (env : Env σ) (now : ℤ) (s : Forwarder σ) : Action → Prop
  | .sendInterest p outFace _ => ∀ P ∈ s.pit.entries p,
      s.faceIds outFace = 0 ∨ violatesScope env P outFace = true ∨ P.inRecords.isEmpty = false
  | .rejectPendingInterest p => ∀ P ∈ s.pit.entries p,
      P.hasUnexpiredOutRecords now = true ∨ P.nameTreeEntry.isSome = true
  | .sendNack _ _ _ => True

instance decidableActionOk (env : Env σ) (now : ℤ) (s : Forwarder σ) :
    ∀ a, Decidable (ActionOk env now s a)
  | .sendInterest p outFace _ => inferInstanceAs (Decidable (∀ P ∈ s.pit.entries p,
      s.faceIds outFace = 0 ∨ violatesScope env P outFace = true ∨ P.inRecords.isEmpty = false))
  | .rejectPendingInterest p => inferInstanceAs (Decidable (∀ P ∈ s.pit.entries p,
      P.hasUnexpiredOutRecords now = true ∨ P.nameTreeEntry.isSome = true))
  | .sendNack _ _ _ => inferInstanceAs (Decidable True)

/-- Each action of a callback is in order when it is performed. -/
def ActionsOk (env : Env σ) (now : ℤ) (s : Forwarder σ) : List Action → Prop
  | [] => True
  | a :: acts => ActionOk env now s a ∧ ActionsOk env now (act env now s a).state acts

instance decidableActionsOk (env : Env σ) (now : ℤ) :
    ∀ (acts : List Action) (s : Forwarder σ), Decidable (ActionsOk env now s acts)
  | [], _ => inferInstanceAs (Decidable True)
  | a :: acts, s =>
      have := decidableActionsOk env now acts (act env now s a).state
      inferInstanceAs (Decidable (ActionOk env now s a ∧
        ActionsOk env now (act env now s a).state acts))

/-- A pipeline or callback that ends normally, keeps the invariant and erases nothing. -/
structure Keeps (s : Forwarder σ) (X : Set Pit.EntryId) (r : Result σ) : Prop where
  ok : r.signal = .ok
  inv : TimerInv r.state X
  stored : ∀ p, r.state.Stored p ↔ s.Stored p

/-- Nothing happens. -/
theorem Keeps.refl (h : TimerInv s X) : Keeps s X ⟨s, .ok⟩ :=
  ⟨rfl, h, fun _ => Iff.rfl⟩

/-- An out-record leaves the timers. -/
theorem timerOf_insertOrUpdateOutRecord (P : Pit.Entry) (face : FaceRef) (i : Interest)
    (nonce : UInt32) (now : ℤ) :
    (P.insertOrUpdateOutRecord face i nonce now).nameTreeEntry = P.nameTreeEntry ∧
      (∀ k, timerOf (P.insertOrUpdateOutRecord face i nonce now) k = timerOf P k) ∧
      (P.insertOrUpdateOutRecord face i nonce now).inRecords = P.inRecords := by
  unfold Pit.Entry.insertOrUpdateOutRecord
  simp only
  split
  · exact ⟨rfl, fun k => by cases k <;> rfl, rfl⟩
  · exact ⟨rfl, fun k => by cases k <;> rfl, rfl⟩

variable {p : Pit.EntryId} {now : ℤ} {acts : List Action} {inFace : FaceRef} {i : Interest}

section

variable (h : TimerInv s X)

include h

/-- Sending the picked Interest keeps the invariant. -/
theorem TimerInv.sendPicked_keeps (p : Pit.EntryId) (P : Pit.Entry) (outFace : FaceRef)
    (hi : i.getNonce.isSome = true) (now : ℤ) : Keeps s X (s.sendPicked p P outFace i now) := by
  obtain ⟨nonce, hnonce⟩ := isSome_iff_exists.mp hi
  have hrecord := fun P => timerOf_insertOrUpdateOutRecord P outFace i nonce now
  have hmod : TimerInv
      (s.modifyEntry p fun P => P.insertOrUpdateOutRecord outFace i nonce now) X := by
    refine h.modifyEntry p (fun P => (hrecord P).1) (fun P => (hrecord P).2.1) ?_
    intro P hP r hr
    rw [(hrecord P).2.2] at hr
    exact hP r hr
  unfold sendPicked
  rw [hnonce]
  exact ⟨rfl, hmod.of_eq rfl rfl rfl, stored_modifyEntry fun P => (hrecord P).1⟩

/-- `onOutgoingInterest` in order keeps the invariant. -/
theorem TimerInv.onOutgoingInterest_keeps {outFace : FaceRef} {newNonce : Option UInt32}
    (hok : ActionOk env now s (.sendInterest p outFace newNonce)) :
    Keeps s X (onOutgoingInterest env s p outFace newNonce now) := by
  unfold onOutgoingInterest
  cases hP : s.pit.entries p with
  | none => exact Keeps.refl h
  | some P =>
    simp only
    split_ifs with hid hscope
    · exact Keeps.refl h
    · exact Keeps.refl h
    · have hne : P.inRecords.isEmpty = false :=
        ((hok P hP).resolve_left hid).resolve_left hscope
      cases hpick : pickInRecord outFace P.inRecords with
      | none =>
        cases hrecords : P.inRecords with
        | nil =>
          rw [hrecords] at hne
          cases hne
        | cons r rs =>
          rw [hrecords] at hpick
          cases hpick
      | some r =>
        have hr := h.readable p P hP r (mem_of_pickInRecord hpick)
        cases newNonce with
        | none => exact h.sendPicked_keeps p P outFace hr now
        | some nonce => exact h.sendPicked_keeps p P outFace rfl now

/-- `onInterestReject` in order keeps the invariant. -/
theorem TimerInv.onInterestReject_keeps (hok : ActionOk env now s (.rejectPendingInterest p)) :
    Keeps s X ⟨s.onInterestReject p now, .ok⟩ := by
  rcases onInterestReject_cases s p now with heq | ⟨P, hP, hun, heq⟩
  · rw [heq]
    exact Keeps.refl h
  · have hstored : s.Stored p := by
      refine ⟨P, hP, (hok P hP).resolve_left ?_⟩
      rw [hun]
      exact Bool.false_ne_true
    rw [heq, setStragglerTimer_eq]
    refine ⟨rfl, (h.cancelTimers p).schedule_of_insert _ hstored, ?_⟩
    intro q
    exact stored_congr (s := s) (core_schedule _) q

/-- `onOutgoingNack` keeps the invariant. -/
theorem TimerInv.onOutgoingNack_keeps (p : Pit.EntryId) (outFace : FaceRef)
    (reason : ℕ) : Keeps s X ⟨onOutgoingNack env s p outFace reason, .ok⟩ := by
  rcases onOutgoingNack_cases env s p outFace reason with heq | ⟨P, r, -, -, -, heq⟩
  · rw [heq]
    exact Keeps.refl h
  · have hmod : TimerInv (s.modifyEntry p fun P => P.deleteInRecord outFace) X := by
      refine h.modifyEntry p (fun _ => rfl) (fun P k => by cases k <;> rfl) ?_
      intro P hP r hr
      exact hP r (mem_of_mem_eraseP hr)
    rw [heq]
    exact ⟨rfl, hmod.of_eq rfl rfl rfl, stored_modifyEntry fun _ => rfl⟩

/-- An action in order keeps the invariant. -/
theorem TimerInv.act_keeps {a : Action} (hok : ActionOk env now s a) :
    Keeps s X (act env now s a) := by
  cases a with
  | sendInterest p outFace newNonce => exact h.onOutgoingInterest_keeps hok
  | rejectPendingInterest p => exact h.onInterestReject_keeps hok
  | sendNack p outFace reason => exact h.onOutgoingNack_keeps p outFace reason

end

/-- A callback in order keeps the invariant. -/
theorem TimerInv.dispatchToStrategy_keeps :
    ∀ {s : Forwarder σ}, TimerInv s X → ActionsOk env now s acts →
      Keeps s X (dispatchToStrategy env now s acts) := by
  induction acts with
  | nil =>
    intro s h _
    exact Keeps.refl h
  | cons a acts ih =>
    intro s h hok
    have hact := h.act_keeps hok.1
    have hrest := ih hact.inv hok.2
    unfold dispatchToStrategy
    rw [Result.andThen_ok hact.ok]
    exact ⟨hrest.ok, hrest.inv, fun q => (hrest.stored q).trans (hact.stored q)⟩

/-! ### Incoming Interests -/

/-- The callback of `onContentStoreMiss` is in order. -/
def MissOk (env : Env σ) (s : Forwarder σ) (inFace : FaceRef) (p : Pit.EntryId) (i : Interest)
    (nonce : UInt32) (now : ℤ) (acts : List Action) : Prop :=
  ActionsOk env now ((s.modifyEntry p fun P =>
    P.insertOrUpdateInRecord inFace i nonce now).setUnsatisfyTimer p) acts

instance (env : Env σ) (s : Forwarder σ) (inFace : FaceRef) (p : Pit.EntryId) (i : Interest)
    (nonce : UInt32) (now : ℤ) (acts : List Action) :
    Decidable (MissOk env s inFace p i nonce now acts) :=
  decidableActionsOk env now acts _

/-- The content store is not asked for a name without successor, and the callback is in order. -/
def ProcessOk (env : Env σ) (s : Forwarder σ) (inFace : FaceRef) (p : Pit.EntryId) (P : Pit.Entry)
    (i : Interest) (nonce : UInt32) (now : ℤ) (acts : List Action) : Prop :=
  if P.inRecords.isEmpty then
    csThrows i = false ∧ ((env.csFind s.cs i).2 = none →
      MissOk env { s with cs := (env.csFind s.cs i).1 } inFace p i nonce now acts)
  else MissOk env s inFace p i nonce now acts

instance (env : Env σ) (s : Forwarder σ) (inFace : FaceRef) (p : Pit.EntryId) (P : Pit.Entry)
    (i : Interest) (nonce : UInt32) (now : ℤ) (acts : List Action) :
    Decidable (ProcessOk env s inFace p P i nonce now acts) :=
  inferInstanceAs (Decidable (if P.inRecords.isEmpty then _ ∧ (_ → MissOk _ _ _ _ _ _ _ _)
    else MissOk _ _ _ _ _ _ _ _))

/-- An Interest whose nonce is unreadable or known finds an entry in the PIT, and the others are
processed in order. -/
def InterestOk (env : Env σ) (s : Forwarder σ) (inFace : FaceRef) (i : Interest) (now : ℤ)
    (acts : List Action) : Prop :=
  ∀ q ∈ (s.pit.insert i).2.1.bind fun p => ((s.pit.insert i).1.entries p).map fun P => (p, P),
    (i.getNonce = none → (s.pit.find i).2.isSome = true) ∧ ∀ nonce ∈ i.getNonce,
        if s.hasDuplicateNonce q.2 i nonce inFace then (s.pit.find i).2.isSome = true
        else ProcessOk env (cancelTimers { s with pit := (s.pit.insert i).1 } q.1) inFace q.1 q.2 i
          nonce now acts

instance (env : Env σ) (s : Forwarder σ) (inFace : FaceRef) (i : Interest) (now : ℤ)
    (acts : List Action) : Decidable (InterestOk env s inFace i now acts) :=
  -- by the nonce that the Interest has, not by trying all of them
  @Option.decidableForallMem _ _
    (fun _ => @instDecidableAnd _ _ inferInstance (decidableForallMem _)) _

/-- Another name tree keeps the invariant. -/
theorem TimerInv.withNameTree (h : TimerInv s X) {t : NameTree}
    (ht : Pit.PointerInv (s.pit.withNameTree t)) :
    TimerInv { s with pit := s.pit.withNameTree t } X :=
  h.congr ht h.readable rfl (fun _ => Iff.rfl) rfl rfl

/-- A new entry may lack a timer. -/
theorem TimerInv.insertAt (h : TimerInv s X) (i : Interest) (e : NameTree.EntryId) :
    TimerInv { s with pit := s.pit.insertAt i e } (insert s.pit.nextEntry X) := by
  have hnew := Pit.entries_insertAt_self s.pit i e
  have hother : ∀ {q}, q ≠ s.pit.nextEntry → (s.pit.insertAt i e).entries q = s.pit.entries q :=
    fun hq => update_of_ne hq ..
  have hfresh := h.pointers.fresh s.pit.nextEntry le_rfl
  have hheld : held { s with pit := s.pit.insertAt i e } = s.held := by
    funext q k
    unfold held
    by_cases hq : q = s.pit.nextEntry
    · subst hq
      simp only [hnew, hfresh]
      cases k <;> rfl
    · simp only [hother hq]
  have hstored : ∀ {q}, q ≠ s.pit.nextEntry →
      (Stored { s with pit := s.pit.insertAt i e } q ↔ s.Stored q) := by
    intro q hq
    unfold Stored Pit.Stored
    simp only [hother hq]
  refine ⟨h.pointers.insertAt i e, ?_, ?_, ?_, ?_, ?_⟩
  · intro q Q hQ
    by_cases hq : q = s.pit.nextEntry
    · rw [hq] at hQ
      simp only [hnew] at hQ
      cases hQ
      intro r hr
      cases hr
    · simp only [hother hq] at hQ
      exact h.readable q Q hQ
  · rw [hheld]
    exact h.bound
  · rw [hheld]
    exact h.inj
  · intro id tm hev
    obtain ⟨hst, hid⟩ := h.pending id tm hev
    have hne : tm.entry ≠ s.pit.nextEntry := by
      rintro heq
      obtain ⟨P, hP, -⟩ := hst
      rw [heq, hfresh] at hP
      cases hP
    rw [hheld]
    exact ⟨(hstored hne).mpr hst, hid⟩
  · intro q hq hX
    have hne : q ≠ s.pit.nextEntry := fun hqn => hX (Or.inl hqn)
    exact h.armed q ((hstored hne).mp hq) fun hqX => hX (Or.inr hqX)

/-- After `Pit::insert` at most the entry it returns is without a timer, and none is when the
Interest was there before. -/
theorem TimerInv.afterInsert (h : TimerInv s X) {P : Pit.Entry} (hp : (s.pit.insert i).2.1 = some p)
    (hP : (s.pit.insert i).1.entries p = some P) : Stored { s with pit := (s.pit.insert i).1 } p ∧
      TimerInv { s with pit := (s.pit.insert i).1 } (insert p X) ∧
      ((s.pit.find i).2.isSome = true → TimerInv { s with pit := (s.pit.insert i).1 } X) := by
  have hlookup := h.withNameTree (h.pointers.withLookup i.name)
  have hfound : (s.pit.find i).2.isSome = true →
      TimerInv { s with pit := (s.pit.insert i).1 } X := by
    intro hsome
    obtain ⟨q, hq⟩ := isSome_iff_exists.mp hsome
    rw [Pit.insert_eq_of_find hq]
    exact hlookup
  refine ⟨?_, ?_, hfound⟩
  · refine ⟨P, hP, ?_⟩
    unfold Pit.insert at hp hP
    rcases Pit.findOrInsert_outcome s.pit i true with ⟨e, E, q, hE, hq, -, heq⟩ | ⟨-, e, heq⟩ | heq
    · rw [heq] at hp hP
      cases hp
      obtain ⟨Q, hQ, hback⟩ := hlookup.pointers.back e E hE p hq
      have hPQ : some P = some Q := hP.symm.trans hQ
      cases hPQ
      rw [hback]
      rfl
    · rw [heq] at hp hP
      cases hp
      cases hP.symm.trans (Pit.entries_insertAt_self _ i e)
      rfl
    · rw [heq] at hp
      cases hp
  · unfold Pit.insert at hp ⊢
    rcases Pit.findOrInsert_outcome s.pit i true with ⟨e, E, q, -, -, -, heq⟩ | ⟨-, e, heq⟩ | heq
    · rw [heq]
      exact hlookup.mono (Set.subset_insert p X)
    · rw [heq] at hp ⊢
      cases hp
      exact hlookup.insertAt i e
    · rw [heq] at hp
      cases hp

/-- A miss gives the entry its timer. -/
theorem TimerInv.onContentStoreMiss_keeps (h : TimerInv s (insert p X)) (hstored : s.Stored p)
    {nonce : UInt32} (hi : i.getNonce = some nonce) (hok : MissOk env s inFace p i nonce now acts) :
    Keeps s X (onContentStoreMiss env s inFace p i nonce now acts) := by
  have hptr : ∀ P : Pit.Entry,
      (P.insertOrUpdateInRecord inFace i nonce now).nameTreeEntry = P.nameTreeEntry := by
    intro P
    unfold Pit.Entry.insertOrUpdateInRecord
    simp only
    split <;> rfl
  have hmod : TimerInv (s.modifyEntry p fun P => P.insertOrUpdateInRecord inFace i nonce now)
      (insert p X) := by
    refine h.modifyEntry p hptr ?_ ?_
    · intro P k
      unfold Pit.Entry.insertOrUpdateInRecord
      simp only
      split <;> cases k <;> rfl
    · intro P hP r hr
      unfold Pit.Entry.insertOrUpdateInRecord at hr
      simp only at hr
      split at hr
      · rcases mem_cons.mp hr with rfl | hr
        · rw [hi]
          rfl
        · exact hP r hr
      · rcases mem_or_eq_of_mem_set hr with hr | rfl
        · exact hP r hr
        · rw [hi]
          rfl
  have hset := hmod.schedule_of_insert (.unsatisfy p) ((stored_modifyEntry hptr p).mpr hstored)
  have hcall := hset.dispatchToStrategy_keeps hok
  refine ⟨hcall.ok, hcall.inv, fun q => (hcall.stored q).trans ?_⟩
  exact (stored_congr (core_schedule (.unsatisfy p)) q).trans (stored_modifyEntry hptr q)

/-- Outgoing Data keeps the invariant. -/
theorem TimerInv.onOutgoingData (h : TimerInv s X) (d : Data) (outFace : FaceRef) :
    TimerInv (onOutgoingData env s d outFace) X := by
  rcases onOutgoingData_cases env s d outFace with heq | ⟨-, -, heq⟩
  · rw [heq]
    exact h
  · rw [heq]
    exact h.of_eq rfl rfl rfl

/-- An Interest in order gives its entry a timer. -/
theorem TimerInv.processInterest (h : TimerInv s (insert p X)) (hstored : s.Stored p)
    {P : Pit.Entry} {nonce : UInt32} (hi : i.getNonce = some nonce)
    (hok : ProcessOk env s inFace p P i nonce now acts) :
    (processInterest env s inFace p P i nonce now acts).signal = .ok ∧
      TimerInv (processInterest env s inFace p P i nonce now acts).state X := by
  unfold ProcessOk at hok
  unfold Forwarder.processInterest
  split_ifs at hok ⊢ with hempty hthrow
  · rw [hok.1] at hthrow
    cases hthrow
  · have hcs : TimerInv { s with cs := (env.csFind s.cs i).1 } (insert p X) :=
      h.of_eq rfl rfl rfl
    simp only
    cases hfind : (env.csFind s.cs i).2 with
    | some d =>
      refine ⟨rfl, TimerInv.onOutgoingData ?_ d inFace⟩
      exact hcs.schedule_of_insert (.straggler p true d.freshnessPeriod) hstored
    | none =>
      have hmiss := hcs.onContentStoreMiss_keeps hstored hi (hok.2 hfind)
      exact ⟨hmiss.ok, hmiss.inv⟩
  · have hmiss := h.onContentStoreMiss_keeps hstored hi hok
    exact ⟨hmiss.ok, hmiss.inv⟩

/-- An incoming Interest in order keeps the invariant. -/
theorem TimerInv.onIncomingInterest (h : TimerInv s ∅) (hok : InterestOk env s inFace i now acts) :
    (onIncomingInterest env s inFace i now acts).signal ≠ .aborted ∧
      TimerInv (onIncomingInterest env s inFace i now acts).state ∅ := by
  unfold InterestOk at hok
  unfold Forwarder.onIncomingInterest
  split_ifs
  · exact ⟨by simp, h⟩
  · simp only
    cases hbind : (s.pit.insert i).2.1.bind fun p =>
        ((s.pit.insert i).1.entries p).map fun P => (p, P) with
    | none =>
      -- does not happen, but then nothing was inserted
      refine ⟨by simp, ?_⟩
      unfold Pit.insert at hbind ⊢
      have hlookup := h.withNameTree (h.pointers.withLookup i.name)
      rcases Pit.findOrInsert_outcome s.pit i true with ⟨e, E, q, -, -, -, heq⟩ | ⟨-, e, heq⟩ | heq
      · rw [heq]
        exact hlookup
      · rw [heq] at hbind
        have hnew : ((s.pit.withNameTree (s.pit.nameTree.lookup i.name).1).insertAt i e).entries
            s.pit.nextEntry = some (Pit.newEntry i e) := update_self ..
        simp only [bind_some, hnew, map_some] at hbind
        cases hbind
      · rw [heq]
        exact hlookup
    | some q =>
      obtain ⟨p, P⟩ := q
      obtain ⟨hp, hP⟩ := Pit.eq_some_of_bind_map hbind
      obtain ⟨hstored, hnew, hold⟩ := h.afterInsert hp hP
      obtain ⟨hunreadable, hreadable⟩ := hok (p, P) hbind
      simp only
      cases hi : i.getNonce with
      | none => exact ⟨by simp, hold (hunreadable hi)⟩
      | some nonce =>
        have hprocess := hreadable nonce hi
        have hdup : hasDuplicateNonce { s with pit := (s.pit.insert i).1 } P i nonce inFace =
          s.hasDuplicateNonce P i nonce inFace := rfl
        simp only [hdup]
        split_ifs at hprocess ⊢
        · exact ⟨by simp, hold hprocess⟩
        · have hcancel := (hnew.cancelTimers p).mono (Set.insert_eq_of_mem
            (Set.mem_insert p ∅)).subset
          obtain ⟨hsig, hinv⟩ := hcancel.processInterest hstored hi hprocess
          exact ⟨by rw [hsig]; simp, hinv⟩

/-! ### Incoming Data -/

/-- The callbacks for the matching entries are in order. -/
def SatisfyOk (env : Env σ) (inFace : FaceRef) (d : Data) (now : ℤ)
    (acts : Pit.EntryId → List Action) : List Pit.EntryId → Forwarder σ → Prop
  | [], _ => True
  | p :: ps, s =>
      ActionsOk env now (s.cancelTimers p) (acts p) ∧ SatisfyOk env inFace d now acts ps
          ((dispatchToStrategy env now (s.cancelTimers p) (acts p)).state.markSatisfied inFace d p)

instance decidableSatisfyOk (env : Env σ) (inFace : FaceRef) (d : Data) (now : ℤ)
    (acts : Pit.EntryId → List Action) :
    ∀ (ps : List Pit.EntryId) (s : Forwarder σ), Decidable (SatisfyOk env inFace d now acts ps s)
  | [], _ => inferInstanceAs (Decidable True)
  | p :: ps, s =>
      have := decidableSatisfyOk env inFace d now acts ps
        ((dispatchToStrategy env now (s.cancelTimers p) (acts p)).state.markSatisfied inFace d p)
      inferInstanceAs (Decidable (ActionsOk env now (s.cancelTimers p) (acts p) ∧
        SatisfyOk env inFace d now acts ps _))

/-- The callbacks of `onIncomingData` are in order. -/
def DataOk (env : Env σ) (s : Forwarder σ) (inFace : FaceRef) (d : Data) (now : ℤ)
    (acts : Pit.EntryId → List Action) : Prop :=
  isViolatingLocalhost env inFace d.name = true ∨
    SatisfyOk env inFace d now acts (s.pit.findAllDataMatches d) (csInsert env s inFace d false)

instance (env : Env σ) (s : Forwarder σ) (inFace : FaceRef) (d : Data) (now : ℤ)
    (acts : Pit.EntryId → List Action) : Decidable (DataOk env s inFace d now acts) :=
  inferInstanceAs (Decidable (_ ∨ SatisfyOk _ _ _ _ _ _ _))

/-- A satisfied entry gets its straggler timer. -/
theorem TimerInv.markSatisfied (h : TimerInv s (insert p X))
    (hstored : s.Stored p) (inFace : FaceRef) (d : Data) :
    TimerInv (s.markSatisfied inFace d p) X ∧
      ∀ q, (s.markSatisfied inFace d p).Stored q ↔ s.Stored q := by
  obtain ⟨P, hP, hsome⟩ := hstored
  obtain ⟨dnl, hdnl⟩ := insertDeadNonceList_eq s P true d.freshnessPeriod (some inFace)
  have hptr : ∀ P : Pit.Entry,
      (P.deleteInRecords.deleteOutRecord inFace).nameTreeEntry = P.nameTreeEntry := fun _ => rfl
  have hmod : TimerInv (Forwarder.modifyEntry { s with deadNonceList := dnl } p fun P =>
      P.deleteInRecords.deleteOutRecord inFace) (insert p X) := by
    have hdead : TimerInv { s with deadNonceList := dnl } (insert p X) := h.of_eq rfl rfl rfl
    refine hdead.modifyEntry p hptr (fun P k => by cases k <;> rfl) ?_
    intro P _ r hr
    cases hr
  unfold Forwarder.markSatisfied
  simp only [hP, hdnl, setStragglerTimer_eq]
  refine ⟨hmod.schedule_of_insert (.straggler p true d.freshnessPeriod)
    ((stored_modifyEntry hptr p).mpr ⟨P, hP, hsome⟩), fun q => ?_⟩
  exact (stored_congr (core_schedule _) q).trans (stored_modifyEntry hptr q)

/-- The loop over the matching entries keeps the invariant. -/
theorem TimerInv.satisfyEntries {d : Data}
    {acts : Pit.EntryId → List Action} {ps : List Pit.EntryId} :
    ∀ {s : Forwarder σ} (pending : List FaceRef), TimerInv s X → (∀ p ∈ ps, s.Stored p) →
      SatisfyOk env inFace d now acts ps s →
      (satisfyEntries env inFace d now acts ps s pending).1.signal = .ok ∧
        TimerInv (satisfyEntries env inFace d now acts ps s pending).1.state X := by
  induction ps with
  | nil =>
    intro s pending h _ _
    exact ⟨rfl, h⟩
  | cons p ps ih =>
    intro s pending h hstored hok
    have hp : s.Stored p := hstored p mem_cons_self
    have hcall := (h.cancelTimers p).dispatchToStrategy_keeps hok.1
    obtain ⟨hmark, hkeep⟩ := hcall.inv.markSatisfied ((hcall.stored p).mpr hp) inFace d
    obtain ⟨P, hP, -⟩ := hp
    unfold Forwarder.satisfyEntries
    simp only [hP, hcall.ok]
    refine ih _ hmark ?_ hok.2
    intro q hq
    exact (hkeep q).mpr ((hcall.stored q).mpr (hstored q (mem_cons_of_mem p hq)))

/-- Caching keeps the invariant. -/
theorem TimerInv.csInsert (h : TimerInv s X) (env : Env σ) (inFace : FaceRef) (d : Data)
    (isUnsolicited : Bool) : TimerInv (csInsert env s inFace d isUnsolicited) X := by
  unfold Forwarder.csInsert
  split_ifs
  · exact h
  · exact h.of_eq rfl rfl rfl

/-- Incoming Data in order keeps the invariant. -/
theorem TimerInv.onIncomingData (h : TimerInv s ∅) {d : Data}
    {acts : Pit.EntryId → List Action} (hok : DataOk env s inFace d now acts) :
    (onIncomingData env s inFace d now acts).signal ≠ .aborted ∧
      TimerInv (onIncomingData env s inFace d now acts).state ∅ := by
  unfold Forwarder.onIncomingData
  split_ifs with hviol
  · exact ⟨by simp, h⟩
  · simp only
    split_ifs
    · refine ⟨by simp, ?_⟩
      unfold onDataUnsolicited
      split_ifs
      · exact h.csInsert env inFace d true
      · exact h
    · have hstored : ∀ p ∈ s.pit.findAllDataMatches d,
          (Forwarder.csInsert env s inFace d false).Stored p := by
        intro p hp
        unfold Stored
        rw [pit_csInsert]
        exact h.pointers.stored_of_mem_findAllDataMatches hp
      obtain ⟨hsig, hinv⟩ := TimerInv.satisfyEntries [] (h.csInsert env inFace d false)
        hstored (hok.resolve_left hviol)
      rw [Result.andThen_ok hsig]
      refine ⟨by simp, ?_⟩
      simp only
      generalize Forwarder.satisfyEntries env.daemon inFace d now acts _ _ _ = r at hinv
      generalize filter _ _ = faces
      revert hinv
      generalize r.1.state = s'
      intro hinv
      induction faces generalizing s' with
      | nil => exact hinv
      | cons g faces ih => exact ih _ (hinv.onOutgoingData d g)

/-! ### Incoming Nacks and timers -/

/-- The callback of `onIncomingNack`, if there is one, is in order. -/
def NackOk (env : Env σ) (s : Forwarder σ) (inFace : FaceRef) (i : Interest) (reason : ℕ)
    (now : ℤ) (acts : List Action) : Prop :=
  ∀ q ∈ (s.pit.find i).2.bind fun p => ((s.pit.find i).1.entries p).map fun P => (p, P),
    ∀ outRecord ∈ q.2.getOutRecord inFace, ∀ nonce ∈ i.getNonce,
      env.linkType inFace = .multiAccess ∨ nonce ≠ outRecord.lastNonce ∨ ActionsOk env now
          (modifyEntry { s with pit := (s.pit.find i).1 } q.1 fun P =>
            setIncomingNack P inFace reason) acts

instance (env : Env σ) (s : Forwarder σ) (inFace : FaceRef) (i : Interest) (reason : ℕ)
    (now : ℤ) (acts : List Action) : Decidable (NackOk env s inFace i reason now acts) :=
  @Option.decidableForallMem _ _ (fun _ => @Option.decidableForallMem _ _
    (fun _ => decidableForallMem _) _) _

/-- A lookup in the PIT keeps the invariant. -/
theorem TimerInv.afterFind (h : TimerInv s X) (i : Interest) :
    TimerInv { s with pit := (s.pit.find i).1 } X := by
  have hlookup := h.withNameTree (h.pointers.withLookup i.name)
  unfold Pit.find
  rcases Pit.findOrInsert_outcome s.pit i false with ⟨e, E, q, -, -, -, heq⟩ | ⟨hfalse, -⟩ | heq
  · rw [heq]
    exact hlookup
  · cases hfalse
  · rw [heq]
    exact hlookup

/-- An incoming Nack in order keeps the invariant. -/
theorem TimerInv.onIncomingNack (h : TimerInv s ∅) {reason : ℕ}
    (hok : NackOk env s inFace i reason now acts) :
    (onIncomingNack env s inFace i reason now acts).signal ≠ .aborted ∧
      TimerInv (onIncomingNack env s inFace i reason now acts).state ∅ := by
  have hfind := h.afterFind i
  unfold Forwarder.onIncomingNack
  split_ifs with hlink
  · exact ⟨by simp, h⟩
  · simp only
    cases hbind : (s.pit.find i).2.bind fun p =>
        ((s.pit.find i).1.entries p).map fun P => (p, P) with
    | none => exact ⟨by simp, hfind⟩
    | some q =>
      simp only
      cases hrec : q.2.getOutRecord inFace with
      | none => exact ⟨by simp, hfind⟩
      | some outRecord =>
        simp only
        cases hi : i.getNonce with
        | none => exact ⟨by simp, hfind⟩
        | some nonce =>
          simp only
          split_ifs with hnonce
          · exact ⟨by simp, hfind⟩
          · have hacts := ((hok q hbind outRecord hrec nonce hi).resolve_left hlink).resolve_left
              hnonce
            have hmod : TimerInv (Forwarder.modifyEntry { s with pit := (s.pit.find i).1 } q.1
                fun P => setIncomingNack P inFace reason) ∅ := by
              refine hfind.modifyEntry q.1 ?_ ?_ ?_
              · intro P
                unfold setIncomingNack
                split <;> rfl
              · intro P k
                unfold setIncomingNack
                split <;> cases k <;> rfl
              · intro P hP
                unfold setIncomingNack
                split
                · exact hP
                · exact hP
            have hcall := hmod.dispatchToStrategy_keeps hacts
            exact ⟨by rw [hcall.ok]; simp, hcall.inv⟩

/-- An entry without timers is erased. -/
theorem TimerInv.erase (h : TimerInv s {p}) (hstored : s.Stored p)
    (hnone : ∀ id tm, (id, tm) ∈ s.events → tm.entry ≠ p) :
    ∃ pit, s.pit.erase p = some pit ∧ TimerInv { s with pit := pit } ∅ ∧
      ¬ Stored { s with pit := pit } p := by
  obtain ⟨P, hP, hsome⟩ := hstored
  obtain ⟨e, he⟩ := isSome_iff_exists.mp hsome
  have herase : ∃ pit, s.pit.erase p = some pit ∧ pit.entries =
      update s.pit.entries p (some { P with nameTreeEntry := none }) := by
    refine ⟨_, by unfold Pit.erase; rw [hP, bind_some, he], ?_⟩
    unfold Pit.detach
    simp [hP]
  obtain ⟨pit, heq, hentries⟩ := herase
  have hself : pit.entries p = some { P with nameTreeEntry := none } := by
    rw [hentries, update_self]
  have hother : ∀ {q}, q ≠ p → pit.entries q = s.pit.entries q := by
    intro q hq
    rw [hentries, update_of_ne hq]
  have hheld : held { s with pit := pit } = s.held := by
    funext q k
    unfold held
    by_cases hq : q = p
    · subst hq
      simp only [hself, hP]
      cases k <;> rfl
    · simp only [hother hq]
  have hgone : ¬ Stored { s with pit := pit } p := by
    rintro ⟨Q, hQ, hback⟩
    simp only [hself] at hQ
    cases hQ
    cases hback
  have hst : ∀ {q}, q ≠ p → (Stored { s with pit := pit } q ↔ s.Stored q) := by
    intro q hq
    unfold Stored Pit.Stored
    simp only [hother hq]
  refine ⟨pit, heq, ⟨h.pointers.erase heq, ?_, ?_, ?_, ?_, ?_⟩, hgone⟩
  · intro q Q hQ
    by_cases hq : q = p
    · subst hq
      simp only [hself] at hQ
      cases hQ
      exact h.readable q P hP
    · simp only [hother hq] at hQ
      exact h.readable q Q hQ
  · rw [hheld]
    exact h.bound
  · rw [hheld]
    exact h.inj
  · intro id tm hev
    rw [hheld]
    obtain ⟨hstored', hid⟩ := h.pending id tm hev
    exact ⟨(hst (hnone id tm hev)).mpr hstored', hid⟩
  · intro q hq _
    have hqp : q ≠ p := by
      rintro rfl
      exact hgone hq
    exact h.armed q ((hst hqp).mp hq) hqp

/-- `onInterestFinalize` takes the entry out. -/
theorem TimerInv.onInterestFinalize (h : TimerInv s {p}) (hstored : s.Stored p)
    (isSatisfied : Bool) (fresh : ℤ) :
    (s.onInterestFinalize p isSatisfied fresh).signal = .ok ∧
      TimerInv (s.onInterestFinalize p isSatisfied fresh).state ∅ ∧
      ¬ (s.onInterestFinalize p isSatisfied fresh).state.Stored p := by
  obtain ⟨P, hP, hsome⟩ := hstored
  obtain ⟨dnl, hdnl⟩ := insertDeadNonceList_eq s P isSatisfied fresh none
  have hdead : TimerInv { s with deadNonceList := dnl } {p} := h.of_eq rfl rfl rfl
  have hcancel := (hdead.cancelTimers p).mono (Set.insert_eq_of_mem (Set.mem_singleton p)).subset
  obtain ⟨pit, heq, hinv, hgone⟩ := hcancel.erase ⟨P, hP, hsome⟩
    fun id tm hev => ((hdead.mem_events_cancelTimers p).mp hev).2
  unfold Forwarder.onInterestFinalize
  simp only [hP, hdnl, heq]
  exact ⟨trivial, hinv, hgone⟩

/-- The callback before an entry expires is in order. -/
def ExpireOk (env : Env σ) (s : Forwarder σ) (id : ℕ) (now : ℤ) (acts : List Action) : Prop :=
  ∀ e ∈ s.events.find? fun e => e.1 == id,
    e.2.kind = .unsatisfy → ActionsOk env now (s.cancel (some id)) acts

instance (env : Env σ) (s : Forwarder σ) (id : ℕ) (now : ℤ) (acts : List Action) :
    Decidable (ExpireOk env s id now acts) :=
  inferInstanceAs (Decidable (∀ e ∈ _, _ → ActionsOk _ _ _ _))

/-- A timer that is taken out leaves its entry without one. -/
theorem TimerInv.cancel (h : TimerInv s ∅) {id : ℕ} {tm : Timer} (hev : (id, tm) ∈ s.events) :
    TimerInv (s.cancel (some id)) {tm.entry} := by
  have hmem : ∀ {e}, e ∈ (s.cancel (some id)).events ↔ e ∈ s.events ∧ some e.1 ≠ some id := by
    intro e
    unfold Forwarder.cancel
    simp
  refine ⟨h.pointers, h.readable, h.bound, h.inj, ?_, ?_⟩
  · intro id' tm' hev'
    exact h.pending id' tm' (hmem.mp hev').1
  · intro q hq hne
    obtain ⟨id', tm', hev', htm'⟩ := h.armed q hq (Set.notMem_empty q)
    refine ⟨id', tm', hmem.mpr ⟨hev', ?_⟩, htm'⟩
    intro heq
    have hid : id' = id := some.inj heq
    rw [hid] at hev'
    have hsame := (h.inj _ _ _ _ id (h.pending id tm' hev').2 (h.pending id tm hev).2).1
    exact hne (htm'.symm.trans hsame)

/-- A timer that fires takes its entry out. -/
theorem TimerInv.onTimer (h : TimerInv s ∅) {id : ℕ} (hok : ExpireOk env s id now acts) :
    (onTimer env s id now acts).signal = .ok ∧ TimerInv (onTimer env s id now acts).state ∅ ∧
      ∀ tm, (id, tm) ∈ s.events → ¬ (onTimer env s id now acts).state.Stored tm.entry := by
  unfold Forwarder.onTimer
  cases hfind : s.events.find? fun e => e.1 == id with
  | none =>
    refine ⟨rfl, h, fun tm hev => ?_⟩
    have hno := find?_eq_none.mp hfind (id, tm) hev
    simp at hno
  | some e =>
    obtain ⟨id', tm⟩ := e
    have hid : id' = id := by simpa using find?_some hfind
    subst hid
    have hev := mem_of_find?_eq_some hfind
    have hcancel := h.cancel hev
    have hstored : (s.cancel (some id')).Stored tm.entry := (h.pending id' tm hev).1
    -- an id belongs to one timer only
    have hunique : ∀ tm', (id', tm') ∈ s.events → tm'.entry = tm.entry := fun tm' hev' =>
      (h.inj _ _ _ _ id' (h.pending id' tm' hev').2 (h.pending id' tm hev).2).1
    cases tm with
    | unsatisfy p =>
      have hcall := hcancel.dispatchToStrategy_keeps (hok _ hfind rfl)
      obtain ⟨hsig, hinv, hgone⟩ := hcall.inv.onInterestFinalize ((hcall.stored p).mpr hstored)
        false (-1)
      simp only [onInterestUnsatisfied, Result.andThen_ok hcall.ok]
      exact ⟨hsig, hinv, fun tm' hev' => by rw [hunique tm' hev']; exact hgone⟩
    | straggler p isSatisfied fresh =>
      obtain ⟨hsig, hinv, hgone⟩ := hcancel.onInterestFinalize hstored isSatisfied fresh
      exact ⟨hsig, hinv, fun tm' hev' => by rw [hunique tm' hev']; exact hgone⟩

/-! ### Runs -/

/-- The condition on an event in the state in which it occurs. -/
def EventOk (env : Env σ) (s : Forwarder σ) : Event → Prop
  | .interest inFace i now acts =>
      isViolatingLocalhost env inFace i.name = true ∨ InterestOk env s inFace i now acts
  | .data inFace d now acts => DataOk env s inFace d now acts
  | .nack inFace i reason now acts => NackOk env s inFace i reason now acts
  | .timer id now acts => ExpireOk env s id now acts
  | .strategy now acts => ActionsOk env now s acts
  | .addFace _ | .removeFace _ | .markDeadNonceList | .adjustDeadNonceList | .table _ => True

instance decidableEventOk (env : Env σ) (s : Forwarder σ) : ∀ ev, Decidable (EventOk env s ev)
  | .interest inFace i now acts =>
      inferInstanceAs (Decidable (_ ∨ InterestOk env s inFace i now acts))
  | .data inFace d now acts => inferInstanceAs (Decidable (DataOk env s inFace d now acts))
  | .nack inFace i reason now acts =>
      inferInstanceAs (Decidable (NackOk env s inFace i reason now acts))
  | .timer id now acts => inferInstanceAs (Decidable (ExpireOk env s id now acts))
  | .strategy now acts => inferInstanceAs (Decidable (ActionsOk env now s acts))
  | .addFace _ | .removeFace _ | .markDeadNonceList | .adjustDeadNonceList | .table _ =>
    inferInstanceAs (Decidable True)

/-- Every event of a run meets its condition. -/
def RunOk (env : Env σ) (s : Forwarder σ) : List Event → Prop
  | [] => True
  | ev :: evs => EventOk env s ev ∧ RunOk env (step env s ev).state evs

instance decidableRunOk (env : Env σ) :
    ∀ (evs : List Event) (s : Forwarder σ), Decidable (RunOk env s evs)
  | [], _ => inferInstanceAs (Decidable True)
  | ev :: evs, s =>
      have : Decidable (RunOk env (step env s ev).state evs) := decidableRunOk env evs _
      inferInstanceAs (Decidable (EventOk env s ev ∧ RunOk env (step env s ev).state evs))

/-- The beginning of a run in order is in order. -/
theorem RunOk.take {evs : List Event} : ∀ {s : Forwarder σ}, RunOk env s evs → ∀ k,
    RunOk env s (evs.take k) := by
  induction evs with
  | nil =>
    intro s h k
    rw [take_nil]
    exact h
  | cons ev evs ih =>
    intro s h k
    cases k with
    | zero => exact trivial
    | succ k => exact ⟨h.1, ih h.2 k⟩

/-- The other tables keep the invariant. -/
theorem TimerInv.table (h : TimerInv s X) (op : TableOp) :
    TimerInv { s with pit := { s.pit with nameTree := op.apply s.pit.nameTree } } X := by
  refine h.withNameTree ?_
  cases op with
  | lookup n => exact h.pointers.withLookup n
  | eraseEntryIfEmpty e =>
    exact h.pointers.of_attachedFrom (NameTree.attachedFrom_eraseEntryIfEmpty _ e) _
  | attach e fib measurements strategyChoice =>
    exact h.pointers.modifyAttached e
      (g := fun a => ⟨fib, a.pitEntries, measurements, strategyChoice⟩) fun _ => rfl

/-- An event in order keeps the invariant. -/
theorem TimerInv.step (h : TimerInv s ∅) {ev : Event} (hok : EventOk env s ev) :
    (step env s ev).signal ≠ .aborted ∧ TimerInv (step env s ev).state ∅ := by
  cases ev with
  | interest inFace i now acts =>
    rcases hok with hviol | hok
    · simp only [Forwarder.step, Forwarder.onIncomingInterest, hviol, if_true]
      exact ⟨by simp, h⟩
    · exact h.onIncomingInterest hok
  | data inFace d now acts => exact h.onIncomingData hok
  | nack inFace i reason now acts => exact h.onIncomingNack hok
  | timer id now acts =>
    obtain ⟨hsig, hinv, -⟩ := h.onTimer hok
    exact ⟨by rw [Forwarder.step, hsig]; simp, hinv⟩
  | strategy now acts =>
    have hcall := h.dispatchToStrategy_keeps hok
    exact ⟨by rw [Forwarder.step, hcall.ok]; simp, hcall.inv⟩
  | addFace face =>
    unfold Forwarder.step
    simp only
    split_ifs
    · exact ⟨by simp, h⟩
    · exact ⟨by simp, h.of_eq rfl rfl rfl⟩
  | removeFace face | markDeadNonceList | adjustDeadNonceList =>
    exact ⟨by simp [Forwarder.step], h.of_eq rfl rfl rfl⟩
  | table op => exact ⟨by simp [Forwarder.step], h.table op⟩

/-- A run in order keeps the invariant. -/
theorem TimerInv.run {evs : List Event} : ∀ {s : Forwarder σ}, TimerInv s ∅ → RunOk env s evs →
    (run env s evs).signal = .ok ∧ TimerInv (run env s evs).state ∅ := by
  induction evs with
  | nil =>
    intro s h _
    exact ⟨rfl, h⟩
  | cons ev evs ih =>
    intro s h hok
    obtain ⟨hsig, hinv⟩ := h.step hok.1
    unfold Forwarder.run
    simp only [if_neg hsig]
    exact ih hinv hok.2

/-- Every entry in the table has a pending timer, every pending timer has its entry in the table,
and when it fires, `onInterestFinalize` succeeds and takes the entry out. -/
structure TimersOk (env : Env σ) (s : Forwarder σ) : Prop where
  armed : ∀ p, s.Stored p → ∃ id tm, (id, tm) ∈ s.events ∧ tm.entry = p
  pending : ∀ id tm, (id, tm) ∈ s.events → s.Stored tm.entry
  fires : ∀ id tm, (id, tm) ∈ s.events → ∀ now acts, EventOk env s (.timer id now acts) →
    (onTimer env s id now acts).signal = .ok ∧ ¬ (onTimer env s id now acts).state.Stored tm.entry

/-- An Interest for `/A` that is forwarded, answered, and forgotten. -/
def answeredRun : List Event :=
  [.addFace 1, .addFace 2,
    .interest 1 (Pit.plainInterest [.generic [0x41]]) 0 [.sendInterest 0 2 none],
    .data 2 (Pit.plainData NameTree.nameA) 1 fun _ => [],
    .timer 1 2 []]

/-- A stored entry without a timer. -/
theorem not_timersOk_of_orphan (hP : ∃ P ∈ s.pit.entries p, P.nameTreeEntry.isSome = true)
    (hev : ∀ e ∈ s.events, e.2.entry ≠ p) : ¬ TimersOk env s := by
  intro h
  obtain ⟨P, hP, hsome⟩ := hP
  obtain ⟨id, tm, hmem, htm⟩ := h.armed p ⟨P, hP, hsome⟩
  exact hev (id, tm) hmem htm

/-- A timer for an entry that is gone. -/
theorem not_timersOk_of_erased (hev : ∃ e ∈ s.events, e.2.entry = p)
    (hP : ∀ P ∈ s.pit.entries p, P.nameTreeEntry.isSome = false) : ¬ TimersOk env s := by
  intro h
  obtain ⟨⟨id, tm⟩, hmem, htm⟩ := hev
  obtain ⟨P, hP', hsome⟩ := h.pending id tm hmem
  rw [hP P (by rw [← htm]; exact hP')] at hsome
  cases hsome

end IcnDemo.Forwarder
