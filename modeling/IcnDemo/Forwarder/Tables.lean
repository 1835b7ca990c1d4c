import IcnDemo.Forwarder.Elementary
import IcnDemo.Lib.Keyed

/-!
# The tables along runs of the forwarder

Two invariants of the PIT of a running forwarder.  The faces of the out-records of an entry are
distinct, always.  The PIT and its name tree agree (`Pit.Inv`) as long as the name tree operations
of the events are safe (`TablesOk`).
-/

namespace IcnDemo.Forwarder

open Option

variable {σ : Type} {env : Env σ} {s : Forwarder σ}

/-! ### Out-records -/

/-- The out-records of an entry are for distinct faces. -/
def OutDistinct (s : Forwarder σ) : Prop :=
  ∀ p P, s.pit.entries p = some P → (P.outRecords.map Pit.OutRecord.face).Nodup

/-- The faces of out-records after one was written. -/
theorem map_face_insertOrUpdateOutRecord (P : Pit.Entry) (face : FaceRef) (i : Interest)
    (nonce : UInt32) (now : ℤ) :
    (P.insertOrUpdateOutRecord face i nonce now).outRecords.map Pit.OutRecord.face =
      if face ∈ P.outRecords.map Pit.OutRecord.face then P.outRecords.map Pit.OutRecord.face
      else face :: P.outRecords.map Pit.OutRecord.face := by
  grind [Pit.Entry.insertOrUpdateOutRecord, Keyed.map_modify]

/-- A Nack leaves the faces of out-records. -/
theorem map_face_setIncomingNack (P : Pit.Entry) (face : FaceRef) (reason : ℕ) :
    (setIncomingNack P face reason).outRecords.map Pit.OutRecord.face =
      P.outRecords.map Pit.OutRecord.face := by
  unfold setIncomingNack
  split
  · rfl
  · exact Keyed.map_modify (by intro r; rfl) _ _

/-- A change in place that keeps the faces distinct. -/
theorem OutDistinct.modifyEntry (h : OutDistinct s) (p : Pit.EntryId) {f : Pit.Entry → Pit.Entry}
    (hf : ∀ P, (P.outRecords.map Pit.OutRecord.face).Nodup →
      ((f P).outRecords.map Pit.OutRecord.face).Nodup) : OutDistinct (s.modifyEntry p f) := by
  intro q Q hQ
  unfold Forwarder.modifyEntry at hQ
  by_cases hqp : q = p
  · subst hqp
    rw [Pit.entries_modify_self] at hQ
    obtain ⟨P, hP, rfl⟩ := map_eq_some_iff.mp hQ
    exact hf P (h q P hP)
  · rw [Pit.entries_modify_of_ne s.pit f hqp] at hQ
    exact h q Q hQ

/-- An elementary change keeps the faces distinct. -/
theorem OutDistinct.inert {s s' : Forwarder σ} (h : OutDistinct s) (hstep : Inert env s s') :
    OutDistinct s' := by
  cases hstep with
  | quiet hcore _ _ _ =>
    intro p P' hP'
    have hc : s.core p = some P'.core := by
      rw [← hcore, core, hP']
      rfl
    obtain ⟨P, hP, heq⟩ := map_eq_some_iff.mp hc
    have hout : P.outRecords = P'.outRecords := congrArg Pit.Core.outRecords heq
    rw [← hout]
    exact h p P hP
  | inRecord now _ _ _ _ => grind [h.modifyEntry, Pit.Entry.insertOrUpdateInRecord]
  | outRecord nonce now _ _ _ _ _ =>
    refine OutDistinct.modifyEntry h _ fun P hP => ?_
    grind [map_face_insertOrUpdateOutRecord]
  | outNack _ _ _ _ => exact OutDistinct.modifyEntry h _ fun P hP => hP
  | outData _ _ => exact h
  | cache _ => exact h
  | satisfy p inFace =>
    exact h.modifyEntry p fun P hP => hP.sublist (List.eraseP_sublist.map _)
  | incomingNack p inFace reason =>
    refine h.modifyEntry p fun P hP => ?_
    rw [map_face_setIncomingNack]
    exact hP

/-- Elementary changes keep the faces distinct. -/
theorem OutDistinct.inerts {s s' : Forwarder σ} (h : OutDistinct s) (hsteps : Inerts env s s') :
    OutDistinct s' :=
  hsteps.invariant (fun _ _ hs hstep => hs.inert hstep) h

/-- A new entry keeps the faces distinct. -/
theorem OutDistinct.findOrInsert (h : OutDistinct s) (i : Interest) (allowInsert : Bool) :
    OutDistinct { s with pit := (s.pit.findOrInsert i allowInsert).1 } := by
  intro p P hP
  rcases Pit.entries_findOrInsert s.pit i allowInsert with heq | ⟨e, heq⟩
  · rw [heq] at hP
    exact h p P hP
  simp only [heq] at hP
  by_cases hnew : p = s.pit.nextEntry
  · rw [hnew, Function.update_self] at hP
    cases hP
    exact List.nodup_nil
  · rw [Function.update_of_ne hnew] at hP
    exact h p P hP

variable {pit pit' : Pit} {p : Pit.EntryId}

/-- An erasure keeps the faces distinct. -/
theorem OutDistinct.erase (h : OutDistinct s) {pit : Pit}
    (heq : s.pit.erase p = some pit) : OutDistinct { s with pit := pit } := by
  intro q Q hQ
  rw [Pit.entries_erase heq] at hQ
  refine h.modifyEntry p ?_ q Q hQ
  exact fun P hP => hP

/-- Every event keeps the faces distinct. -/
theorem OutDistinct.step (h : OutDistinct s) (ev : Event) : OutDistinct (step env s ev).state := by
  rcases step_cases env s ev with hin | ⟨inFace, i, now, acts, -, -, hin⟩ |
    ⟨inFace, i, reason, now, acts, -, -, hin⟩ |
    ⟨id, now, acts, tm, s', pit, -, -, hin, herase, heq⟩ | ⟨op, -, heq⟩
  · exact h.inerts hin
  · exact (h.findOrInsert i true).inerts hin
  · exact (h.findOrInsert i false).inerts hin
  · rw [heq]
    exact (h.inerts hin).erase herase
  · rw [heq]
    exact h

/-- The faces of out-records are distinct in every run. -/
theorem outDistinct_run (env : Env σ) (cs : σ) (evs : List Event) :
    OutDistinct (run env (create cs) evs).state := by
  refine run_invariant (fun _ ev hs => hs.step ev) ?_
  intro p P hP
  cases hP

/-! ### The name tree -/

/-- The same table with other records and timers. -/
structure SameTable (pit pit' : Pit) : Prop where
  nameTree : pit'.nameTree = pit.nameTree
  nextEntry : pit'.nextEntry = pit.nextEntry
  entries : ∀ p, (pit'.entries p).map (fun P => (P.interest, P.nameTreeEntry)) =
    (pit.entries p).map fun P => (P.interest, P.nameTreeEntry)

/-- A table is the same as itself. -/
theorem SameTable.refl (pit : Pit) : SameTable pit pit :=
  ⟨rfl, rfl, fun _ => rfl⟩

/-- Being the same table is symmetric. -/
theorem SameTable.symm (h : SameTable pit pit') : SameTable pit' pit :=
  ⟨h.nameTree.symm, h.nextEntry.symm, fun p => (h.entries p).symm⟩

/-- Being the same table is transitive. -/
theorem SameTable.trans {pit₁ pit₂ pit₃ : Pit} (h : SameTable pit₁ pit₂)
    (h' : SameTable pit₂ pit₃) : SameTable pit₁ pit₃ :=
  ⟨h'.nameTree.trans h.nameTree, h'.nextEntry.trans h.nextEntry,
    fun p => (h'.entries p).trans (h.entries p)⟩

/-- The same table has the same entries. -/
theorem SameTable.exists_entry (h : SameTable pit pit')
    {P : Pit.Entry} (hP : pit.entries p = some P) :
    ∃ P', pit'.entries p = some P' ∧ P'.interest = P.interest ∧
      P'.nameTreeEntry = P.nameTreeEntry := by
  have hmap := h.entries p
  simp_all

/-- A change in place keeps the table. -/
theorem sameTable_modify (pit : Pit) (p : Pit.EntryId) {f : Pit.Entry → Pit.Entry}
    (hf : ∀ P, (f P).interest = P.interest ∧ (f P).nameTreeEntry = P.nameTreeEntry) :
    SameTable pit (pit.modify p f) := by
  refine ⟨rfl, rfl, fun q => ?_⟩
  by_cases hqp : q = p
  · subst hqp
    rw [Pit.entries_modify_self, map_map]
    refine congrArg (fun g => (pit.entries q).map g) (funext fun P => ?_)
    exact Prod.ext (hf P).1 (hf P).2
  · rw [Pit.entries_modify_of_ne pit f hqp]

/-- An elementary change keeps the table. -/
theorem sameTable_inert {s s' : Forwarder σ} (hstep : Inert env s s') : SameTable s.pit s'.pit := by
  cases hstep with
  | quiet hcore htree hnext _ =>
    refine ⟨htree, hnext, fun p => ?_⟩
    have hc := congrArg (Option.map fun c : Pit.Core => (c.interest, c.nameTreeEntry))
      (congrFun hcore p)
    simp only [core, map_map] at hc
    exact hc
  | inRecord now _ _ _ _ =>
    refine sameTable_modify s.pit _ fun P => ?_
    grind [Pit.Entry.insertOrUpdateInRecord]
  | outRecord nonce now _ _ _ _ _ =>
    refine sameTable_modify s.pit _ fun P => ?_
    grind [Pit.Entry.insertOrUpdateOutRecord]
  | @outNack p P outFace r reason _ _ _ =>
    exact sameTable_modify s.pit p (f := fun P => P.deleteInRecord outFace) fun P => ⟨rfl, rfl⟩
  | outData _ _ | cache _ => exact SameTable.refl s.pit
  | satisfy p inFace =>
    exact sameTable_modify s.pit p (f := fun P => P.deleteInRecords.deleteOutRecord inFace)
      fun P => ⟨rfl, rfl⟩
  | incomingNack p inFace reason =>
    refine sameTable_modify s.pit p fun P => ?_
    grind [setIncomingNack]

/-- Elementary changes keep the table. -/
theorem sameTable_inerts {s s' : Forwarder σ} (hsteps : Inerts env s s') : SameTable s.pit s'.pit :=
  hsteps.invariant (I := fun s' => SameTable s.pit s'.pit)
    (fun _ _ hs hstep => hs.trans (sameTable_inert hstep)) (SameTable.refl s.pit)

/-- The invariant of the PIT is about the table. -/
theorem SameTable.inv (h : SameTable pit pit') (hinv : Pit.Inv pit) : Pit.Inv pit' := by
  refine ⟨?_, ?_, ?_, ?_, ?_⟩
  · rw [h.nameTree]
    exact hinv.tree
  · grind [h.nameTree, hinv.attached, h.exists_entry]
  · grind [h.nameTree, h.symm.exists_entry, hinv.stored]
  · rw [h.nameTree]
    exact hinv.nodup
  · intro p hp
    rw [h.nextEntry] at hp
    have hmap := h.entries p
    rw [hinv.fresh p hp, map_none] at hmap
    exact map_eq_none_iff.mp hmap

/-- Whether an erasure is safe is about the table. -/
theorem SameTable.eraseOk (h : SameTable pit pit')
    (hok : Pit.EraseOk pit p) : Pit.EraseOk pit' p := by
  obtain ⟨e, he, E, hE, hsafe⟩ := hok
  obtain ⟨P, hP, hback⟩ := bind_eq_some_iff.mp he
  obtain ⟨P', hP', -, hptr⟩ := h.exists_entry hP
  have htree : (pit'.detach p e).nameTree = (pit.detach p e).nameTree := by
    unfold Pit.detach
    rw [h.nameTree]
  refine ⟨e, bind_eq_some_iff.mpr ⟨P', hP', hptr.trans hback⟩, E, ?_, ?_⟩
  · rw [htree]
    exact hE
  · rw [htree]
    exact hsafe

/-- An operation of another table on the name tree is safe. -/
def TableOp.Ok (t : NameTree) : TableOp → Prop
  | .lookup n => NameTree.OpOk t (.lookup n)
  | .eraseEntryIfEmpty e => NameTree.OpOk t (.eraseEntryIfEmpty e)
  | .attach _ _ _ _ => True

instance TableOp.decidableOk (t : NameTree) : ∀ op, Decidable (TableOp.Ok t op)
  | .lookup n => inferInstanceAs (Decidable (NameTree.OpOk t (.lookup n)))
  | .eraseEntryIfEmpty e => inferInstanceAs (Decidable (NameTree.OpOk t (.eraseEntryIfEmpty e)))
  | .attach _ _ _ _ => inferInstanceAs (Decidable True)

/-- The name tree operation of an event is safe. -/
def TableOk (env : Env σ) (s : Forwarder σ) : Event → Prop
  | .interest inFace i _ _ => isViolatingLocalhost env inFace i.name = true ∨
      NameTree.LookupOk s.pit.nameTree i.name
  | .nack inFace i _ _ _ => env.linkType inFace = .multiAccess ∨
      NameTree.LookupOk s.pit.nameTree i.name
  | .timer id _ _ => ∀ e ∈ s.events.find? fun e => e.1 == id, ∀ P ∈ s.pit.entries e.2.entry,
      P.nameTreeEntry.isSome = true → Pit.EraseOk s.pit e.2.entry
  | .table op => op.Ok s.pit.nameTree
  | _ => True

instance decidableTableOk (env : Env σ) (s : Forwarder σ) : ∀ ev, Decidable (TableOk env s ev)
  | .interest _ _ _ _ | .nack _ _ _ _ _ => inferInstanceAs (Decidable (_ ∨ NameTree.LookupOk _ _))
  | .timer id _ _ => inferInstanceAs (Decidable (∀ e ∈ s.events.find? fun e => e.1 == id,
      ∀ P ∈ s.pit.entries e.2.entry, P.nameTreeEntry.isSome = true → Pit.EraseOk s.pit e.2.entry))
  | .table op => inferInstanceAs (Decidable (op.Ok s.pit.nameTree))
  | .data _ _ _ _ | .strategy _ _ | .addFace _ | .removeFace _ | .markDeadNonceList
  | .adjustDeadNonceList => inferInstanceAs (Decidable True)

/-- The name tree operations of a run are safe. -/
def TablesOk (env : Env σ) (s : Forwarder σ) : List Event → Prop
  | [] => True
  | ev :: evs => TableOk env s ev ∧ TablesOk env (step env s ev).state evs

instance decidableTablesOk (env : Env σ) :
    ∀ (evs : List Event) (s : Forwarder σ), Decidable (TablesOk env s evs)
  | [], _ => inferInstanceAs (Decidable True)
  | ev :: evs, s =>
      have : Decidable (TablesOk env (step env s ev).state evs) := decidableTablesOk env evs _
      inferInstanceAs (Decidable (TableOk env s ev ∧ TablesOk env (step env s ev).state evs))

/-- A safe operation of another table keeps the invariant of the PIT. -/
theorem inv_tableOp {pit : Pit} (h : Pit.Inv pit) {op : TableOp} (hok : op.Ok pit.nameTree) :
    Pit.Inv (pit.withNameTree (op.apply pit.nameTree)) := by
  cases op with
  | lookup n => exact Pit.inv_lookup h hok
  | eraseEntryIfEmpty e =>
    obtain ⟨E, -, hE, hsafe⟩ := hok
    obtain ⟨hinv, hprune⟩ := NameTree.eraseEntryIfEmpty_spec h.tree hE hsafe
    exact h.of_keepsPitEntries hinv (Pit.keepsPitEntries_of_prunes hprune) _
  | attach e fib measurements strategyChoice =>
    -- names and PIT entries stay where they are
    have hcases : ∀ e' E', ((TableOp.attach e fib measurements strategyChoice).apply
        pit.nameTree).Live e' E' ↔ ∃ E, pit.nameTree.Live e' E ∧ E' = if e' = e then
          { E with attached := ⟨fib, E.attached.pitEntries, measurements, strategyChoice⟩ }
        else E :=
      fun e' E' => NameTree.live_modifyAttached
        (g := fun a => ⟨fib, a.pitEntries, measurements, strategyChoice⟩)
    have hkeep : ∀ e' (E : NameTree.Entry), (if e' = e then { E with attached :=
          ⟨fib, E.attached.pitEntries, measurements, strategyChoice⟩ } else E).attached.pitEntries =
            E.attached.pitEntries ∧
        (if e' = e then { E with attached :=
          ⟨fib, E.attached.pitEntries, measurements, strategyChoice⟩ } else E).namePrefix =
            E.namePrefix := by grind
    have htree := NameTree.inv_modifyAttached h.tree e
      fun a => ⟨fib, a.pitEntries, measurements, strategyChoice⟩
    refine ⟨htree, ?_, ?_, ?_, h.fresh⟩
    · intro e' E' hE' p hp
      obtain ⟨E, hE, rfl⟩ := (hcases e' E').mp hE'
      rw [(hkeep e' E).1] at hp
      rw [(hkeep e' E).2]
      exact h.attached e' E hE p hp
    · intro p P e' hP hback
      obtain ⟨E, hE, hp⟩ := h.stored p P e' hP hback
      exact ⟨_, (hcases e' _).mpr ⟨E, hE, rfl⟩, by rw [(hkeep e' E).1]; exact hp⟩
    · intro e' E' hE'
      obtain ⟨E, hE, rfl⟩ := (hcases e' E').mp hE'
      rw [(hkeep e' E).1]
      exact h.nodup e' E hE

/-- A safe event keeps the invariant of the PIT. -/
theorem inv_step (h : Pit.Inv s.pit) {ev : Event} (hok : TableOk env s ev) :
    Pit.Inv (step env s ev).state.pit := by
  rcases step_cases env s ev with hin | ⟨inFace, i, now, acts, rfl, hscope, hin⟩ |
    ⟨inFace, i, reason, now, acts, rfl, hlink, hin⟩ |
    ⟨id, now, acts, tm, s', pit, rfl, hfind, hin, herase, heq⟩ | ⟨op, rfl, heq⟩
  · exact (sameTable_inerts hin).inv h
  · have hlookup := hok.resolve_left (by rw [hscope]; exact Bool.false_ne_true)
    exact (sameTable_inerts hin).inv (Pit.inv_findOrInsert h hlookup true)
  · exact (sameTable_inerts hin).inv (Pit.inv_findOrInsert h (hok.resolve_left hlink) false)
  · rw [heq]
    have hsame := sameTable_inerts hin
    have hstored : ∃ P', s'.pit.entries tm.entry = some P' ∧ P'.nameTreeEntry.isSome = true := by
      unfold Pit.erase at herase
      grind [bind_eq_some_iff]
    obtain ⟨P', hP', hsome⟩ := hstored
    obtain ⟨P, hP, -, hptr⟩ := hsame.symm.exists_entry hP'
    have hsafe := hsame.eraseOk (hok _ hfind P hP (by rw [hptr]; exact hsome))
    obtain ⟨pit', heq', hinv⟩ := Pit.inv_erase (hsame.inv h) hsafe
    rw [herase] at heq'
    cases heq'
    exact hinv
  · rw [heq]
    exact inv_tableOp h hok

/-- A safe run keeps the invariant of the PIT. -/
theorem inv_run {evs : List Event} : ∀ {s : Forwarder σ}, Pit.Inv s.pit → TablesOk env s evs →
    Pit.Inv (run env s evs).state.pit := by
  induction evs with
  | nil =>
    intro s h _
    exact h
  | cons ev evs ih =>
    intro s h hok
    unfold run
    simp only
    split_ifs
    · exact inv_step h hok.1
    · exact ih (inv_step h hok.1) hok.2

end IcnDemo.Forwarder
