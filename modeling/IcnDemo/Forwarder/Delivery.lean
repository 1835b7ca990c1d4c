import IcnDemo.Forwarder.Tables

/-!
# Delivery of Data

What `onIncomingData` does to the entries it is given and to the faces waiting in them.  The loop
treats each entry of its list exactly as it should: the waiting faces are gathered from the state
before the event, since callbacks may not change in-records, and each gets the Data once.

The list comes from `findAllDataMatches`, which may miss a matching entry.  Delivery is right
exactly when the entries it misses have nothing to be delivered or cleared
(`onIncomingData_delivered_iff`).
-/

namespace IcnDemo.Forwarder

open List Option

variable {σ : Type} {env : Env σ} {s : Forwarder σ} {inFace : FaceRef} {d : Data} {now : ℤ}
  {acts : Pit.EntryId → List Action}

/-! ### Observations -/

/-- The in-records of the entry at an address. -/
def inRecordsAt (s : Forwarder σ) (p : Pit.EntryId) : Option (List Pit.InRecord) :=
  (s.pit.entries p).map Pit.Entry.inRecords

/-- The faces with an out-record in the entry at an address. -/
def outFacesAt (s : Forwarder σ) (p : Pit.EntryId) : List FaceRef :=
  (((s.pit.entries p).map Pit.Entry.outRecords).getD []).map Pit.OutRecord.face

/-- The faces with an unexpired in-record in the entry at an address. -/
def downstreamsAt (s : Forwarder σ) (now : ℤ) (p : Pit.EntryId) : List FaceRef :=
  (((s.inRecordsAt p).getD []).filter fun r => decide (now < r.expiry)).map Pit.InRecord.face

/-- The Data handed to faces. -/
def dataSent (log : List Output) : List (FaceRef × Data) :=
  log.filterMap fun
    | .sendData g d => some (g, d)
    | _ => none

/-- The in-records are a part of the core. -/
theorem inRecordsAt_eq_core (p : Pit.EntryId) :
    s.inRecordsAt p = (s.core p).map Pit.Core.inRecords := by
  unfold inRecordsAt core
  rw [Option.map_map]
  rfl

/-- The faces of out-records are a part of the core. -/
theorem outFacesAt_eq_core (p : Pit.EntryId) :
    s.outFacesAt p = (((s.core p).map Pit.Core.outRecords).getD []).map Pit.OutRecord.face := by
  unfold outFacesAt core
  rw [Option.map_map]
  rfl

/-- The Data sent in two parts of the log. -/
theorem dataSent_append (log log' : List Output) :
    dataSent (log ++ log') = dataSent log ++ dataSent log' :=
  filterMap_append

/-! ### Callbacks -/

variable {p : Pit.EntryId} {ps : List Pit.EntryId} {q : Pit.EntryId} {P : Pit.Entry}

/-- An action changes only its entry. -/
theorem entries_act_of_ne (env : Env σ) (now : ℤ) (s : Forwarder σ) {a : Action} (h : a.entry ≠ q) :
    (act env now s a).state.pit.entries q = s.pit.entries q := by
  have hact := acted_act env now s a
  generalize (act env now s a).state = s' at hact ⊢
  cases hact with
  | nothing => rfl
  | sent | rejected | nacked => exact Pit.entries_modify_of_ne s.pit _ h.symm

/-- A callback changes only the entries of its actions. -/
theorem entries_dispatchToStrategy_of_ne {as : List Action} :
    ∀ {s : Forwarder σ}, (∀ a ∈ as, a.entry ≠ q) →
      (dispatchToStrategy env now s as).state.pit.entries q = s.pit.entries q := by
  induction as with
  | nil =>
    intro s _
    rfl
  | cons a as ih =>
    intro s h
    have ha := entries_act_of_ne env now s (h a mem_cons_self)
    unfold dispatchToStrategy
    by_cases hok : (act env now s a).signal = .ok
    all_goals grind [Result.andThen_ok, Result.andThen_of_ne]

/-- An action sends no Data and leaves the faces. -/
theorem frame_act (env : Env σ) (now : ℤ) (s : Forwarder σ) (a : Action) :
    (act env now s a).state.faceIds = s.faceIds ∧
      dataSent (act env now s a).state.log = dataSent s.log := by
  have hact := acted_act env now s a
  generalize (act env now s a).state = s' at hact ⊢
  cases hact with
  | nothing | rejected => exact ⟨rfl, rfl⟩
  | sent | nacked => exact ⟨rfl, (dataSent_append _ _).trans (append_nil _)⟩

/-- A callback sends no Data and leaves the faces. -/
theorem frame_dispatchToStrategy (env : Env σ) (now : ℤ) (s : Forwarder σ) (as : List Action) :
    (dispatchToStrategy env now s as).state.faceIds = s.faceIds ∧
      dataSent (dispatchToStrategy env now s as).state.log = dataSent s.log := by
  refine dispatchToStrategy_invariant
    (I := fun s' => s'.faceIds = s.faceIds ∧ dataSent s'.log = dataSent s.log) ?_ ⟨rfl, rfl⟩
  grind [frame_act]

/-- An action does nothing to an entry without in-records. -/
theorem core_act_of_idle {a : Action} (h : s.inRecordsAt q = some []) :
    (act env now s a).state.core q = s.core q := by
  obtain ⟨Q, hQ, hnil⟩ := map_eq_some_iff.mp h
  by_cases hq : a.entry = q
  · subst hq
    have hact := acted_act env now s a
    generalize (act env now s a).state = s' at hact ⊢
    cases hact with
    | nothing => rfl
    | rejected => rw [core_setStragglerTimer, core_cancelTimers]
    | sent nonce hP _ _ hr _ | nacked reason hP hr _ =>
      obtain rfl := Option.some.inj (hP.symm.trans hQ)
      rw [hnil] at hr
      cases hr
  · unfold core
    rw [entries_act_of_ne env now s hq]

/-- A callback does nothing to an entry without in-records. -/
theorem core_dispatchToStrategy_of_idle (as : List Action) (h : s.inRecordsAt q = some []) :
    (dispatchToStrategy env now s as).state.core q = s.core q := by
  refine dispatchToStrategy_invariant (I := fun s' => s'.core q = s.core q) ?_ rfl
  grind [inRecordsAt_eq_core, core_act_of_idle]

/-- An action removes no out-record. -/
theorem outFacesAt_act (a : Action) (q : Pit.EntryId) :
    s.outFacesAt q ⊆ (act env now s a).state.outFacesAt q := by
  by_cases hq : a.entry = q
  · subst hq
    have hact := acted_act env now s a
    generalize (act env now s a).state = s' at hact ⊢
    cases hact with
    | nothing => exact Subset.refl _
    | sent nonce hP _ _ _ _ =>
      intro g hg
      unfold outFacesAt at hg ⊢
      grind [emit, modifyEntry, map_face_insertOrUpdateOutRecord, Pit.entries_modify_self]
    | rejected =>
      rw [outFacesAt_eq_core, outFacesAt_eq_core, core_setStragglerTimer]
      exact Subset.refl _
    | nacked reason hP _ _ =>
      unfold outFacesAt
      simp only [emit, modifyEntry, Pit.entries_modify_self, hP, map_some, getD_some]
      exact Subset.refl _
  · unfold outFacesAt
    rw [entries_act_of_ne env now s hq]
    exact Subset.refl _

/-- A callback removes no out-record. -/
theorem outFacesAt_dispatchToStrategy (env : Env σ) (now : ℤ) (s : Forwarder σ) (as : List Action)
    (q : Pit.EntryId) : s.outFacesAt q ⊆ (dispatchToStrategy env now s as).state.outFacesAt q :=
  dispatchToStrategy_invariant (I := fun s' => s.outFacesAt q ⊆ s'.outFacesAt q)
    (fun _ a h => Subset.trans h (outFacesAt_act a q)) (Subset.refl _)

/-! ### One iteration -/

/-- What an iteration of the loop leaves behind. -/
def satisfyEntry (env : Env σ) (inFace : FaceRef) (d : Data) (now : ℤ)
    (acts : Pit.EntryId → List Action) (s : Forwarder σ) (p : Pit.EntryId) : Forwarder σ :=
  (dispatchToStrategy env now (s.cancelTimers p) (acts p)).state.markSatisfied inFace d p

/-- The callback for an entry ends normally and leaves all in-records as they are. -/
def CallbackOk (env : Env σ) (now : ℤ) (acts : Pit.EntryId → List Action) (s : Forwarder σ)
    (p : Pit.EntryId) : Prop :=
  (dispatchToStrategy env now (s.cancelTimers p) (acts p)).signal = .ok ∧ ∀ q < s.pit.nextEntry,
      (dispatchToStrategy env now (s.cancelTimers p) (acts p)).state.inRecordsAt q = s.inRecordsAt q

instance (env : Env σ) (now : ℤ) (acts : Pit.EntryId → List Action) (s : Forwarder σ)
    (p : Pit.EntryId) : Decidable (CallbackOk env now acts s p) :=
  inferInstanceAs (Decidable (_ ∧ ∀ q < s.pit.nextEntry, _))

/-- No entry object beyond the counter. -/
def Fresh (s : Forwarder σ) : Prop :=
  ∀ p, s.pit.nextEntry ≤ p → s.pit.entries p = none

/-- No entry is made. -/
theorem Fresh.sameTable {s s' : Forwarder σ} (h : Fresh s) (hsame : SameTable s.pit s'.pit) :
    Fresh s' := by
  intro p hp
  rw [hsame.nextEntry] at hp
  have hmap := hsame.entries p
  rw [h p hp, map_none] at hmap
  exact map_eq_none_iff.mp hmap

/-- One turn of the loop, in elementary changes. -/
theorem inerts_satisfyEntry (s : Forwarder σ) (p : Pit.EntryId) :
    Inerts env s (satisfyEntry env inFace d now acts s p) :=
  (((Inerts.refl env s).tail (quiet_cancelTimers s p)).trans
    (inerts_dispatchToStrategy env now _ (acts p))).trans (inerts_markSatisfied _ inFace d p)

/-- The callback of one turn, in elementary changes. -/
theorem inerts_callback (env : Env σ) (now : ℤ) (acts : Pit.EntryId → List Action)
    (s : Forwarder σ) (p : Pit.EntryId) :
    Inerts env s (dispatchToStrategy env now (s.cancelTimers p) (acts p)).state :=
  ((Inerts.refl env s).tail (quiet_cancelTimers s p)).trans
    (inerts_dispatchToStrategy env now _ (acts p))

/-- A callback in order keeps all in-records. -/
theorem CallbackOk.inRecordsAt (h : CallbackOk env now acts s p)
    (hfresh : Fresh s) (q : Pit.EntryId) :
    (dispatchToStrategy env now (s.cancelTimers p) (acts p)).state.inRecordsAt q =
      s.inRecordsAt q := by
  by_cases hq : q < s.pit.nextEntry
  · exact h.2 q hq
  have hsame := sameTable_inerts (inerts_callback env now acts s p)
  have hnone := hfresh q (Nat.not_lt.mp hq)
  have hnone' := hfresh.sameTable hsame q (by rw [hsame.nextEntry]; exact Nat.not_lt.mp hq)
  unfold Forwarder.inRecordsAt
  rw [hnone, hnone']

/-- `markSatisfied` changes one entry. -/
theorem entries_markSatisfied_of_ne {p q : Pit.EntryId} (h : q ≠ p) :
    (s.markSatisfied inFace d p).pit.entries q = s.pit.entries q := by
  unfold markSatisfied
  split
  · rfl
  rename_i P _
  obtain ⟨dnl, heq⟩ := insertDeadNonceList_eq s P true d.freshnessPeriod (some inFace)
  simp only [heq]
  have hrecords := Pit.entries_modify_of_ne s.pit
    (fun P => P.deleteInRecords.deleteOutRecord inFace) h
  rw [← hrecords]
  exact Pit.entries_modify_of_ne _ _ h

/-- `markSatisfied` deletes the in-records and one out-record. -/
theorem core_markSatisfied_self (hP : s.pit.entries p = some P) :
    (s.markSatisfied inFace d p).core p = some (P.deleteInRecords.deleteOutRecord inFace).core := by
  obtain ⟨dnl, heq⟩ := insertDeadNonceList_eq s P true d.freshnessPeriod (some inFace)
  unfold markSatisfied
  simp [hP, heq, core_modifyEntry_self]

/-- `markSatisfied` leaves faces and log. -/
theorem frame_markSatisfied (s : Forwarder σ) (inFace : FaceRef) (d : Data) (p : Pit.EntryId) :
    (s.markSatisfied inFace d p).faceIds = s.faceIds ∧
      (s.markSatisfied inFace d p).log = s.log := by
  unfold markSatisfied
  split
  · exact ⟨rfl, rfl⟩
  · rename_i P _
    obtain ⟨dnl, heq⟩ := insertDeadNonceList_eq s P true d.freshnessPeriod (some inFace)
    simp only [heq]
    exact ⟨rfl, rfl⟩

/-- A face has no out-record after it was deleted. -/
theorem notMem_deleteOutRecord (h : (P.outRecords.map Pit.OutRecord.face).Nodup) (face : FaceRef) :
    face ∉ (P.deleteOutRecord face).outRecords.map Pit.OutRecord.face := by
  unfold Pit.Entry.deleteOutRecord
  generalize P.outRecords = rs at h
  induction rs with
  | nil => exact not_mem_nil
  | cons r rs ih => grind

/-- One turn empties its entry. -/
theorem satisfyEntry_self (hpresent : (s.inRecordsAt p).isSome = true)
    (hout : OutDistinct s) (hfresh : Fresh s) (hcall : CallbackOk env now acts s p) :
    (satisfyEntry env inFace d now acts s p).inRecordsAt p = some [] ∧
      inFace ∉ (satisfyEntry env inFace d now acts s p).outFacesAt p := by
  have hin := hcall.inRecordsAt hfresh p
  have hdistinct := hout.inerts (inerts_callback env now acts s p)
  obtain ⟨rs, hrs⟩ := isSome_iff_exists.mp hpresent
  rw [hrs] at hin
  obtain ⟨P, hP, -⟩ := map_eq_some_iff.mp hin
  unfold satisfyEntry
  rw [inRecordsAt_eq_core, outFacesAt_eq_core, core_markSatisfied_self hP]
  exact ⟨rfl, notMem_deleteOutRecord (P := P.deleteInRecords) (hdistinct p P hP) inFace⟩

/-- One turn leaves the in-records of the others. -/
theorem satisfyEntry_of_ne {p q : Pit.EntryId} (hq : q ≠ p) (hfresh : Fresh s)
    (hcall : CallbackOk env now acts s p) :
    (satisfyEntry env inFace d now acts s p).inRecordsAt q = s.inRecordsAt q ∧
      s.outFacesAt q ⊆ (satisfyEntry env inFace d now acts s p).outFacesAt q := by
  constructor
  · rw [← hcall.inRecordsAt hfresh q]
    unfold satisfyEntry inRecordsAt
    rw [entries_markSatisfied_of_ne hq]
  · have hdispatch := outFacesAt_dispatchToStrategy env now (s.cancelTimers p) (acts p) q
    simp_all [satisfyEntry, outFacesAt, entries_markSatisfied_of_ne]

/-- One turn does nothing to an entry without in-records. -/
theorem core_satisfyEntry_of_idle {p q : Pit.EntryId} (hq : q ≠ p)
    (hidle : s.inRecordsAt q = some []) :
    (satisfyEntry env inFace d now acts s p).core q = s.core q := by
  have hcall : (dispatchToStrategy env now (s.cancelTimers p) (acts p)).state.core q =
      s.core q := core_dispatchToStrategy_of_idle (s := s.cancelTimers p) (acts p) hidle
  rw [← hcall]
  unfold satisfyEntry core
  rw [entries_markSatisfied_of_ne hq]

/-! ### The loop -/

/-- The callbacks of all iterations are in order. -/
def CallbacksOk (env : Env σ) (inFace : FaceRef) (d : Data) (now : ℤ)
    (acts : Pit.EntryId → List Action) : List Pit.EntryId → Forwarder σ → Prop
  | [], _ => True
  | p :: ps, s => CallbackOk env now acts s p ∧
      CallbacksOk env inFace d now acts ps (satisfyEntry env inFace d now acts s p)

instance decidableCallbacksOk (env : Env σ) (inFace : FaceRef) (d : Data) (now : ℤ)
    (acts : Pit.EntryId → List Action) :
    ∀ (ps : List Pit.EntryId) (s : Forwarder σ), Decidable (CallbacksOk env inFace d now acts ps s)
  | [], _ => inferInstanceAs (Decidable True)
  | p :: ps, s =>
      have := decidableCallbacksOk env inFace d now acts ps (satisfyEntry env inFace d now acts s p)
      inferInstanceAs (Decidable (CallbackOk env now acts s p ∧ _))

/-- The state after the loop. -/
def satisfied (env : Env σ) (inFace : FaceRef) (d : Data) (now : ℤ)
    (acts : Pit.EntryId → List Action) (ps : List Pit.EntryId) (s : Forwarder σ) : Forwarder σ :=
  ps.foldl (satisfyEntry env inFace d now acts) s

/-- The downstreams depend on the in-records. -/
theorem downstreamsAt_congr {s s' : Forwarder σ}
    (h : s'.inRecordsAt p = s.inRecordsAt p) : s'.downstreamsAt now p = s.downstreamsAt now p := by
  unfold downstreamsAt
  rw [h]

/-- The loop gathers the downstreams of all its entries. -/
theorem satisfyEntries_eq : ∀ {s : Forwarder σ} (pending : List FaceRef), ps.Nodup →
      (∀ p ∈ ps, (s.inRecordsAt p).isSome = true) → Fresh s →
      CallbacksOk env inFace d now acts ps s →
      satisfyEntries env inFace d now acts ps s pending =
        (⟨satisfied env inFace d now acts ps s, .ok⟩,
          pending ++ ps.flatMap (s.downstreamsAt now)) := by
  induction ps with
  | nil =>
    intro s pending _ _ _ _
    rw [flatMap_nil, append_nil]
    rfl
  | cons p ps ih =>
    intro s pending hnodup hpresent hfresh hcalls
    obtain ⟨hp, hps⟩ := nodup_cons.mp hnodup
    have hkeep : ∀ q ∈ ps,
        (satisfyEntry env inFace d now acts s p).inRecordsAt q = s.inRecordsAt q := by
      intro q hq
      have hqp : q ≠ p := by
        rintro rfl
        exact hp hq
      exact (satisfyEntry_of_ne hqp hfresh hcalls.1).1
    have hpresent' : ∀ q ∈ ps,
        ((satisfyEntry env inFace d now acts s p).inRecordsAt q).isSome = true := by
      intro q hq
      rw [hkeep q hq]
      exact hpresent q (mem_cons_of_mem p hq)
    have hflat : ps.flatMap ((satisfyEntry env inFace d now acts s p).downstreamsAt now) =
        ps.flatMap (s.downstreamsAt now) :=
      flatMap_congr fun q hq => downstreamsAt_congr (hkeep q hq)
    obtain ⟨rs, hrs⟩ := isSome_iff_exists.mp (hpresent p mem_cons_self)
    obtain ⟨P, hP, hrecords⟩ := map_eq_some_iff.mp hrs
    have hdown : s.downstreamsAt now p = pendingDownstreams P now := by
      unfold downstreamsAt pendingDownstreams
      rw [hrs, hrecords, getD_some]
    unfold satisfyEntries
    simp only [hP, hcalls.1.1]
    have hrest := ih (pending ++ pendingDownstreams P now) hps hpresent'
      (hfresh.sameTable (sameTable_inerts (inerts_satisfyEntry s p))) hcalls.2
    rw [hflat, append_assoc, ← hdown] at hrest
    rw [flatMap_cons, ← hdown]
    exact hrest

/-- The loop does nothing to other entries without in-records. -/
theorem core_satisfied_of_idle : ∀ {s : Forwarder σ}, q ∉ ps → s.inRecordsAt q = some [] →
      (satisfied env inFace d now acts ps s).core q = s.core q := by
  induction ps with
  | nil =>
    intro s _ _
    rfl
  | cons p ps ih =>
    intro s hq hidle
    rw [mem_cons, not_or] at hq
    have hcore : (satisfyEntry env inFace d now acts s p).core q = s.core q :=
      core_satisfyEntry_of_idle hq.1 hidle
    have hidle' : (satisfyEntry env inFace d now acts s p).inRecordsAt q = some [] := by
      rw [inRecordsAt_eq_core, hcore, ← inRecordsAt_eq_core, hidle]
    exact (ih hq.2 hidle').trans hcore

/-- What the loop does to the entries of the list and to the others. -/
structure LoopOutcome (inFace : FaceRef) (acts : Pit.EntryId → List Action)
    (ps : List Pit.EntryId) (s s' : Forwarder σ) : Prop where
  cleared : ∀ q ∈ ps, s'.inRecordsAt q = some [] ∧ inFace ∉ s'.outFacesAt q
  kept : ∀ q, q ∉ ps → s'.inRecordsAt q = s.inRecordsAt q ∧ s.outFacesAt q ⊆ s'.outFacesAt q
  idle : ∀ q, q ∉ ps → s.inRecordsAt q = some [] → s'.core q = s.core q
  frame : ∀ q, q ∉ ps → (∀ p ∈ ps, ∀ a ∈ acts p, a.entry ≠ q) → s'.pit.entries q = s.pit.entries q
  faceIds : s'.faceIds = s.faceIds
  sent : dataSent s'.log = dataSent s.log

/-- The outcome is about the table, the faces and the Data sent. -/
theorem LoopOutcome.of_eq {s₀ s s' : Forwarder σ}
    (h : LoopOutcome inFace acts ps s₀ s') (hpit : s₀.pit = s.pit) (hids : s₀.faceIds = s.faceIds)
    (hsent : dataSent s₀.log = dataSent s.log) : LoopOutcome inFace acts ps s s' := by
  have hin : s₀.inRecordsAt = s.inRecordsAt := by
    funext q
    unfold inRecordsAt
    rw [hpit]
  have hfaces : s₀.outFacesAt = s.outFacesAt := by
    funext q
    unfold outFacesAt
    rw [hpit]
  have hcore : s₀.core = s.core := by
    funext q
    unfold core
    rw [hpit]
  refine ⟨h.cleared, ?_, ?_, ?_, h.faceIds.trans hids, h.sent.trans hsent⟩
  · rw [← hin, ← hfaces]
    exact h.kept
  · rw [← hin, ← hcore]
    exact h.idle
  · rw [← hpit]
    exact h.frame

/-- What the loop does to the table. -/
theorem loopOutcome_satisfied :
    ∀ {s : Forwarder σ}, ps.Nodup → (∀ p ∈ ps, (s.inRecordsAt p).isSome = true) → Fresh s →
      OutDistinct s → CallbacksOk env inFace d now acts ps s →
      LoopOutcome inFace acts ps s (satisfied env inFace d now acts ps s) := by
  induction ps with
  | nil =>
    intro s _ _ _ _ _
    exact ⟨fun q hq => absurd hq not_mem_nil, fun q _ => ⟨rfl, Subset.refl _⟩,
      fun q _ _ => rfl, fun q _ _ => rfl, rfl, rfl⟩
  | cons p ps ih =>
    intro s hnodup hpresent hfresh hout hcalls
    obtain ⟨hp, hps⟩ := nodup_cons.mp hnodup
    set s₁ := satisfyEntry env inFace d now acts s p with hs₁
    have hone : Inerts env s s₁ := inerts_satisfyEntry s p
    have hother : ∀ q, q ≠ p → s₁.inRecordsAt q = s.inRecordsAt q ∧
        s.outFacesAt q ⊆ s₁.outFacesAt q :=
      fun q hq => satisfyEntry_of_ne hq hfresh hcalls.1
    have hpresent' : ∀ q ∈ ps, (s₁.inRecordsAt q).isSome = true := by grind
    have hself : s₁.inRecordsAt p = some [] ∧ inFace ∉ s₁.outFacesAt p :=
      satisfyEntry_self (hpresent p mem_cons_self) hout hfresh hcalls.1
    have hcall := frame_dispatchToStrategy env now (s.cancelTimers p) (acts p)
    have hmark := frame_markSatisfied
      (dispatchToStrategy env now (s.cancelTimers p) (acts p)).state inFace d p
    have hrest := ih hps hpresent' (hfresh.sameTable (sameTable_inerts hone)) (hout.inerts hone)
      hcalls.2
    refine ⟨?_, ?_, ?_, ?_, ?_, ?_⟩
    · intro q hq
      rcases mem_cons.mp hq with rfl | hq
      · -- cleared by its own iteration, and idle ever since
        have hcore : (satisfied env inFace d now acts (q :: ps) s).core q =
            (satisfyEntry env inFace d now acts s q).core q := hrest.idle q hp hself.1
        grind [inRecordsAt_eq_core, outFacesAt_eq_core]
      · exact hrest.cleared q hq
    · intro q hq
      rw [mem_cons, not_or] at hq
      have hlast := hrest.kept q hq.2
      exact ⟨hlast.1.trans (hother q hq.1).1, Subset.trans (hother q hq.1).2 hlast.2⟩
    · intro q hq hidle
      exact core_satisfied_of_idle hq hidle
    · intro q hq haddr
      rw [mem_cons, not_or] at hq
      have hlast := hrest.frame q hq.2 fun p' hp' => haddr p' (mem_cons_of_mem p hp')
      refine hlast.trans ?_
      rw [hs₁, satisfyEntry, entries_markSatisfied_of_ne hq.1]
      exact entries_dispatchToStrategy_of_ne (haddr p mem_cons_self)
    · exact hrest.faceIds.trans (hmark.1.trans hcall.1)
    · refine hrest.sent.trans ?_
      rw [hs₁, satisfyEntry, hmark.2]
      exact hcall.2

/-! ### Sending -/

/-- May the Data be sent to the face? -/
def accepts (env : Env σ) (s : Forwarder σ) (d : Data) (g : FaceRef) : Bool :=
  decide (s.faceIds g ≠ 0) && !isViolatingLocalhost env g d.name

/-- Data goes to a face that accepts it. -/
theorem onOutgoingData_eq (env : Env σ) (s : Forwarder σ) (d : Data) (g : FaceRef) :
    onOutgoingData env s d g = if accepts env s d g then s.emit (.sendData g d) else s := by
  unfold onOutgoingData accepts
  grind

/-- The Data goes to all faces that accept it. -/
theorem sendAll_spec (env : Env σ) (d : Data) (gs : List FaceRef) : ∀ (s : Forwarder σ),
    (gs.foldl (fun s g => onOutgoingData env s d g) s).pit = s.pit ∧
      dataSent (gs.foldl (fun s g => onOutgoingData env s d g) s).log =
        dataSent s.log ++ (gs.filter (accepts env s d)).map fun g => (g, d) := by
  induction gs with
  | nil =>
    intro s
    exact ⟨rfl, (append_nil _).symm⟩
  | cons g gs ih =>
    intro s
    rw [foldl_cons, onOutgoingData_eq]
    by_cases hg : accepts env s d g = true
    · obtain ⟨hpit, hsent⟩ := ih (s.emit (.sendData g d))
      have haccepts : accepts env (s.emit (.sendData g d)) d = accepts env s d := rfl
      rw [if_pos hg, filter_cons_of_pos hg, map_cons]
      refine ⟨hpit, hsent.trans ?_⟩
      rw [haccepts, log_emit, dataSent_append, append_assoc]
      rfl
    · rw [if_neg hg, filter_cons_of_neg hg]
      exact ih s

/-! ### The result -/

/-- A face that should get the Data: valid, not the incoming one, not barred, and with an
unexpired in-record in a matching entry. -/
def Downstream (env : Env σ) (s : Forwarder σ) (inFace : FaceRef) (d : Data) (now : ℤ)
    (g : FaceRef) : Prop :=
  g ≠ inFace ∧ s.faceIds g ≠ 0 ∧ isViolatingLocalhost env g d.name = false ∧
    ∃ p P, Pit.Stored s.pit p P ∧ P.interest.matchesData d = true ∧
      ∃ r ∈ P.inRecords, r.face = g ∧ now < r.expiry

/-- What the arrival of a Data should lead to. -/
structure Delivered (env : Env σ) (s : Forwarder σ) (inFace : FaceRef) (d : Data) (now : ℤ)
    (acts : Pit.EntryId → List Action) (s' : Forwarder σ) : Prop where
  /-- The Data is handed once to each such face, and nothing else is. -/
  sent : ∃ gs : List FaceRef, gs.Nodup ∧ (∀ g, g ∈ gs ↔ Downstream env s inFace d now g) ∧
    dataSent s'.log = dataSent s.log ++ gs.map fun g => (g, d)
  /-- The matching entries have no in-record and no out-record of the incoming face left. -/
  cleared : ∀ p P, Pit.Stored s.pit p P → P.interest.matchesData d = true →
    s'.inRecordsAt p = some [] ∧ inFace ∉ s'.outFacesAt p
  /-- The other entries are as before, unless a callback acts on them. -/
  frame : ∀ p, ¬ Pit.Matching s.pit d p →
    (∀ q, Pit.Matching s.pit d q → ∀ a ∈ acts q, a.entry ≠ p) →
    s'.pit.entries p = s.pit.entries p

/-- The matching entries that are not above the first candidate for the Data name have neither
in-records nor an out-record of the incoming face. -/
def MissedIdle (s : Forwarder σ) (inFace : FaceRef) (d : Data) : Prop :=
  ∀ p P, Pit.Stored s.pit p P → P.interest.matchesData d = true →
    (¬ ∃ l L, NameTree.FirstCandidate s.pit.nameTree d.keptName NameTree.Entry.hasPitEntries l L ∧
      P.interest.name <+: L.namePrefix) →
    P.inRecords = [] ∧ ∀ r ∈ P.outRecords, r.face ≠ inFace

/-- The in-records of a stored entry. -/
theorem inRecordsAt_of_stored (h : Pit.Stored s.pit p P) : s.inRecordsAt p = some P.inRecords := by
  unfold inRecordsAt
  rw [h.1, map_some]

/-- The faces of out-records of a stored entry. -/
theorem outFacesAt_of_stored (h : Pit.Stored s.pit p P) :
    s.outFacesAt p = P.outRecords.map Pit.OutRecord.face := by
  unfold outFacesAt
  rw [h.1, map_some, getD_some]

/-- The downstreams have in-records that have not expired. -/
theorem mem_downstreamsAt (h : Pit.Stored s.pit p P) {g : FaceRef} :
    g ∈ s.downstreamsAt now p ↔ ∃ r ∈ P.inRecords, r.face = g ∧ now < r.expiry := by
  unfold downstreamsAt
  grind [inRecordsAt_of_stored]

/-- The faces the Data goes to, given the entries of the loop. -/
def receivers (env : Env σ) (s : Forwarder σ) (inFace : FaceRef) (d : Data) (now : ℤ)
    (ps : List Pit.EntryId) : List FaceRef :=
  ((ps.flatMap (s.downstreamsAt now)).dedup.filter (· ≠ inFace)).filter (accepts env s d)

/-- Who receives the Data. -/
theorem mem_receivers {g : FaceRef} :
    g ∈ receivers env s inFace d now ps ↔ g ≠ inFace ∧ s.faceIds g ≠ 0 ∧
      isViolatingLocalhost env g d.name = false ∧ ∃ p ∈ ps, g ∈ s.downstreamsAt now p := by
  grind [receivers, accepts, mem_dedup]

section

variable (hinv : Pit.Inv s.pit) (hout : OutDistinct s)
  (hscope : isViolatingLocalhost env inFace d.name = false)

include hinv hout hscope

variable (hcalls : CallbacksOk env inFace d now acts (s.pit.findAllDataMatches d)
  (csInsert env s inFace d false))

include hcalls

/-- What `onIncomingData` does to the table and whom it sends the Data. -/
theorem onIncomingData_outcome :
    (onIncomingData env s inFace d now acts).signal = .ok ∧ ∃ s',
      LoopOutcome inFace acts (s.pit.findAllDataMatches d) s s' ∧
      (onIncomingData env s inFace d now acts).state.pit = s'.pit ∧
      dataSent (onIncomingData env s inFace d now acts).state.log = dataSent s.log ++
        (receivers env s inFace d now (s.pit.findAllDataMatches d)).map fun g => (g, d) := by
  have hcs : ∀ b, dataSent (csInsert env s inFace d b).log = dataSent s.log := by
    intro b
    unfold csInsert
    split_ifs
    · rfl
    · exact (dataSent_append _ _).trans (append_nil _)
  have hcsIds : (csInsert env s inFace d false).faceIds = s.faceIds := by
    unfold csInsert
    split_ifs <;> rfl
  have hpit : ∀ b, (csInsert env s inFace d b).pit = s.pit := pit_csInsert s inFace d
  unfold onIncomingData
  rw [if_neg (by rw [hscope]; exact Bool.false_ne_true)]
  simp only
  split_ifs with hempty
  · have hnil : s.pit.findAllDataMatches d = [] := isEmpty_iff.mp hempty
    have hunsolicited : (onDataUnsolicited env s inFace d).pit = s.pit ∧
        dataSent (onDataUnsolicited env s inFace d).log = dataSent s.log := by
      grind [onDataUnsolicited]
    rw [hnil]
    refine ⟨rfl, s, ⟨fun q hq => absurd hq not_mem_nil,
      fun q _ => ⟨rfl, Subset.refl _⟩, fun q _ _ => rfl, fun q _ _ => rfl, rfl, rfl⟩,
      hunsolicited.1, ?_⟩
    exact hunsolicited.2.trans (append_nil _).symm
  have hstored : ∀ p ∈ s.pit.findAllDataMatches d, ∃ P, Pit.Stored s.pit p P := by
    grind [hinv.mem_findAllDataMatches]
  set s₁ := csInsert env s inFace d false
  have hin : s₁.inRecordsAt = s.inRecordsAt := by
    funext q
    unfold inRecordsAt
    rw [hpit]
  have hpresent : ∀ p ∈ s.pit.findAllDataMatches d, (s₁.inRecordsAt p).isSome = true := by
    intro p hp
    obtain ⟨P, hP⟩ := hstored p hp
    rw [hin, inRecordsAt_of_stored hP]
    rfl
  have hfresh : Fresh s₁ := by
    unfold Fresh
    rw [hpit]
    exact hinv.fresh
  have hdistinct : OutDistinct s₁ := by
    unfold OutDistinct
    rw [hpit]
    exact hout
  have hnodup := hinv.nodup_findAllDataMatches d
  have hloop := (loopOutcome_satisfied hnodup hpresent hfresh hdistinct hcalls).of_eq
    (hpit false) hcsIds (hcs false)
  have hdown : s₁.downstreamsAt now = s.downstreamsAt now := by
    funext q
    exact downstreamsAt_congr (by rw [hin])
  rw [satisfyEntries_eq [] hnodup hpresent hfresh hcalls, Result.andThen_ok rfl]
  simp only
  rw [nil_append, hdown]
  obtain ⟨hsendPit, hsendLog⟩ := sendAll_spec env d
    (((s.pit.findAllDataMatches d).flatMap (s.downstreamsAt now)).dedup.filter (· ≠ inFace))
    (satisfied env inFace d now acts (s.pit.findAllDataMatches d) s₁)
  refine ⟨trivial, _, hloop, hsendPit, hsendLog.trans ?_⟩
  have haccepts : accepts env (satisfied env inFace d now acts (s.pit.findAllDataMatches d) s₁) d =
      accepts env s d := by
    funext g
    unfold accepts
    rw [hloop.faceIds]
  rw [hloop.sent, haccepts]
  rfl

/-- The Data is delivered as it should be exactly if only idle entries are missed. -/
theorem delivered_iff :
    Delivered env s inFace d now acts (onIncomingData env s inFace d now acts).state ↔
      MissedIdle s inFace d := by
  obtain ⟨-, s', hloop, hpit, hsent⟩ := onIncomingData_outcome hinv hout hscope hcalls
  have hin : ∀ p, (onIncomingData env s inFace d now acts).state.inRecordsAt p =
      s'.inRecordsAt p := by
    intro p
    unfold inRecordsAt
    rw [hpit]
  have hfaces : ∀ p, (onIncomingData env s inFace d now acts).state.outFacesAt p =
      s'.outFacesAt p := by
    intro p
    unfold outFacesAt
    rw [hpit]
  -- the matching entries are the entries of the loop and those that were missed
  have hmem : ∀ p P, Pit.Stored s.pit p P → P.interest.matchesData d = true →
      ((∃ l L, NameTree.FirstCandidate s.pit.nameTree d.keptName NameTree.Entry.hasPitEntries l L ∧
        P.interest.name <+: L.namePrefix) ↔ p ∈ s.pit.findAllDataMatches d) := by
    intro p P hP hdata
    rw [hinv.mem_findAllDataMatches]
    constructor
    · intro hpath
      exact ⟨P, hP, hdata, hpath⟩
    · rintro ⟨P', hP', -, hpath⟩
      have hPP : some P = some P' := hP.1.symm.trans hP'.1
      cases hPP
      exact hpath
  have hmatching : ∀ p ∈ s.pit.findAllDataMatches d, Pit.Matching s.pit d p := by
    intro p hp
    obtain ⟨P, hP, hdata, -⟩ := hinv.mem_findAllDataMatches.mp hp
    exact ⟨P, hP, hdata⟩
  constructor
  · intro h p P hP hdata hmiss
    obtain ⟨hclear, hface⟩ := h.cleared p P hP hdata
    grind [hloop.kept, inRecordsAt_of_stored, outFacesAt_of_stored]
  intro hidle
  refine ⟨⟨receivers env s inFace d now (s.pit.findAllDataMatches d), ?_, ?_, hsent⟩, ?_, ?_⟩
  · exact ((nodup_dedup _).filter _).filter _
  · intro g
    rw [mem_receivers]
    refine and_congr_right fun _ => and_congr_right fun _ => and_congr_right fun _ => ?_
    constructor
    · rintro ⟨p, hp, hg⟩
      obtain ⟨P, hP, hdata⟩ := hmatching p hp
      exact ⟨p, P, hP, hdata, (mem_downstreamsAt hP).mp hg⟩
    rintro ⟨p, P, hP, hdata, hwait⟩
    refine ⟨p, ?_, (mem_downstreamsAt hP).mpr hwait⟩
    by_contra hp
    obtain ⟨r, hr, -⟩ := hwait
    rw [(hidle p P hP hdata fun hpath => hp ((hmem p P hP hdata).mp hpath)).1] at hr
    cases hr
  · intro p P hP hdata
    rw [hin, hfaces]
    by_cases hp : p ∈ s.pit.findAllDataMatches d
    · exact hloop.cleared p hp
    obtain ⟨hnil, hno⟩ := hidle p P hP hdata fun hpath => hp ((hmem p P hP hdata).mp hpath)
    have hcore := hloop.idle p hp (by rw [inRecordsAt_of_stored hP, hnil])
    rw [inRecordsAt_eq_core, outFacesAt_eq_core, hcore, ← inRecordsAt_eq_core,
      ← outFacesAt_eq_core, inRecordsAt_of_stored hP, outFacesAt_of_stored hP, hnil]
    simp_all
  · grind [hloop.frame]

end

/-- In every state reached by a run with safe name tree operations, for a Data that scope control
does not drop and callbacks that end normally and leave the in-records alone: the pipeline ends
normally, and it does what it should exactly when the matching entries it misses are idle. -/
theorem onIncomingData_delivered_iff (env : Env σ) (cs : σ) (evs : List Event)
    (hrun : TablesOk env (create cs) evs) (inFace : FaceRef) (d : Data) (now : ℤ)
    (acts : Pit.EntryId → List Action)
    (hscope : isViolatingLocalhost env inFace d.name = false)
    (hcalls : CallbacksOk env inFace d now acts
      ((run env (create cs) evs).state.pit.findAllDataMatches d)
      (csInsert env (run env (create cs) evs).state inFace d false)) :
    (onIncomingData env (run env (create cs) evs).state inFace d now acts).signal = .ok ∧
      (Delivered env (run env (create cs) evs).state inFace d now acts
        (onIncomingData env (run env (create cs) evs).state inFace d now acts).state ↔
        MissedIdle (run env (create cs) evs).state inFace d) := by
  have hinv : Pit.Inv (run env (create cs) evs).state.pit :=
    inv_run (Pit.inv_create (by decide)) hrun
  grind [outDistinct_run, onIncomingData_outcome, delivered_iff]

/-- Two faces wait for `/A`, one of them twice over. -/
def waitingRun : List Event :=
  [.addFace 1, .addFace 2, .addFace 3,
    .interest 1 (Pit.plainInterest [.generic [0x41]]) 0 [.sendInterest 0 2 none],
    .interest 3 { Pit.plainInterest [.generic [0x41]] with nonce := [0, 0, 0, 2] } 1 [],
    .interest 1 { Pit.plainInterest [.generic [0x41]] with
      nonce := [0, 0, 0, 3], selectors := { Selectors.none with mustBeFresh := true } } 2 []]

/-- The condition at work: the Data for `/A` arrives from the face the Interest went to. -/
theorem onIncomingData_delivered_iff_waitingRun :
    (onIncomingData plainEnv (run plainEnv (create ()) waitingRun).state 2
        (Pit.plainData NameTree.nameA) 3 fun _ => []).signal = .ok ∧
      (Delivered plainEnv (run plainEnv (create ()) waitingRun).state 2
        (Pit.plainData NameTree.nameA) 3 (fun _ => [])
        (onIncomingData plainEnv (run plainEnv (create ()) waitingRun).state 2
          (Pit.plainData NameTree.nameA) 3 fun _ => []).state ↔
        MissedIdle (run plainEnv (create ()) waitingRun).state 2
          (Pit.plainData NameTree.nameA)) :=
  onIncomingData_delivered_iff plainEnv () waitingRun (by decide +kernel) 2 _ 3 _
    (by decide +kernel) (by decide +kernel)

/-- It is not, if a matching entry keeps its in-records. -/
theorem not_delivered_of_waiting {s' : Forwarder σ}
    (hP : ∃ P ∈ s.pit.entries p, P.nameTreeEntry.isSome = true ∧ P.interest.matchesData d = true)
    (hin : s'.inRecordsAt p ≠ some []) : ¬ Delivered env s inFace d now acts s' := by
  intro h
  obtain ⟨P, hP, hsome, hdata⟩ := hP
  exact hin (h.cleared p P ⟨hP, hsome⟩ hdata).1

/-- Three Data that are not delivered: one asked for by its full name, one for `/B/A/A` while `/B`
is pending as well, and one whose name is `/A` in octets with the length in three of them. -/
theorem onIncomingData_not_delivered :
    ¬ Delivered plainEnv (run plainEnv (create ()) [.addFace 1, .interest 1 (Pit.plainInterest
          [.generic [0x41], .implicitDigest (replicate 32 0)]) 0 []]).state
        2 (Pit.plainData NameTree.nameA) 1 (fun _ => [])
        (onIncomingData plainEnv (run plainEnv (create ()) [.addFace 1, .interest 1
          (Pit.plainInterest [.generic [0x41],
            .implicitDigest (replicate 32 0)]) 0 []]).state
          2 (Pit.plainData NameTree.nameA) 1 fun _ => []).state ∧
    ¬ Delivered plainEnv (run plainEnv (create ()) [.addFace 1,
          .interest 1 (Pit.plainInterest [.generic [0x42]]) 0 [],
          .interest 1 (Pit.plainInterest NameTree.nameBAA) 0 []]).state
        2 (Pit.plainData NameTree.nameBAA) 1 (fun _ => [])
        (onIncomingData plainEnv (run plainEnv (create ()) [.addFace 1,
            .interest 1 (Pit.plainInterest [.generic [0x42]]) 0 [],
            .interest 1 (Pit.plainInterest NameTree.nameBAA) 0 []]).state
          2 (Pit.plainData NameTree.nameBAA) 1 fun _ => []).state ∧
    ¬ Delivered plainEnv (run plainEnv (create ()) [.addFace 1,
          .interest 1 (Pit.plainInterest NameTree.nameA) 0 []]).state
        2 (Pit.plainData NameTree.keptA) 1 (fun _ => [])
        (onIncomingData plainEnv (run plainEnv (create ()) [.addFace 1,
            .interest 1 (Pit.plainInterest NameTree.nameA) 0 []]).state
          2 (Pit.plainData NameTree.keptA) 1 fun _ => []).state := by
  refine ⟨?_, ?_, ?_⟩
  · exact not_delivered_of_waiting (p := 0) (by decide +kernel) (by decide +kernel)
  · exact not_delivered_of_waiting (p := 1) (by decide +kernel) (by decide +kernel)
  · exact not_delivered_of_waiting (p := 0) (by decide +kernel) (by decide +kernel)

end IcnDemo.Forwarder
