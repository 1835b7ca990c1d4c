import IcnDemo.Forwarder.Frame

/-!
# Which Interest is sent

Several downstreams may have asked for the same Data with different Interests, and the outgoing
Interest pipeline picks one of them.  `compare_pickInterest` prefers a record of another face, and
among those the one that was renewed *earlier*: under `std::max_element` this is the earliest
Interest, and not the last incoming one.
-/

namespace IcnDemo.Forwarder

variable {σ : Type}

/-- The records that can be picked: those of other faces, or all of them if there are none. -/
def candidates (outFace : FaceRef) (rs : List Pit.InRecord) : List Pit.InRecord :=
  if ∃ r ∈ rs, r.face ≠ outFace then rs.filter fun r => r.face ≠ outFace else rs

/-- No record of the list was renewed later. -/
def IsLatest (r : Pit.InRecord) (rs : List Pit.InRecord) : Prop :=
  ∀ r' ∈ rs, r'.lastRenewed ≤ r.lastRenewed

/-- What `compare_pickInterest` compares. -/
def pickKey (outFace : FaceRef) (r : Pit.InRecord) : Bool ×ₗ ℤ :=
  toLex (decide (r.face ≠ outFace), -r.lastRenewed)

/-- The comparison is by a key. -/
theorem comparePickInterest_iff (outFace : FaceRef) (a b : Pit.InRecord) :
    comparePickInterest outFace a b = true ↔ pickKey outFace a < pickKey outFace b := by
  unfold comparePickInterest pickKey
  rw [Prod.Lex.toLex_lt_toLex]
  by_cases ha : a.face = outFace
  · by_cases hb : b.face = outFace
    · simp [ha, hb]
    · simp [ha, hb]
  · simp_all

variable {rs : List Pit.InRecord} {outFace : FaceRef}

/-- The record that is picked has the greatest key. -/
theorem pickInRecord_max {r : Pit.InRecord} (h : pickInRecord outFace rs = some r) :
    r ∈ rs ∧ ∀ r' ∈ rs, pickKey outFace r' ≤ pickKey outFace r := by
  have hfold : ∀ (rs : List Pit.InRecord) (r : Pit.InRecord),
      some (rs.foldl (fun a b => if comparePickInterest outFace a b then b else a) r)
        = rs.foldl (List.argAux fun b c => pickKey outFace c < pickKey outFace b) (some r) := by
    intro rs
    induction rs with
    | nil => exact fun _ => rfl
    | cons b rs ih =>
      intro a
      grind [List.argAux, comparePickInterest_iff]
  have hargmax : pickInRecord outFace rs = rs.argmax (pickKey outFace) := by
    rcases rs with _ | ⟨r, rs⟩
    · rfl
    · exact hfold rs r
  rw [hargmax] at h
  exact ⟨List.argmax_mem h, fun r' hr' => List.le_of_mem_argmax hr' h⟩

/-- Among records of one kind the latest has the least key. -/
theorem pickKey_le_iff {a b : Pit.InRecord} (h : (a.face = outFace) ↔ (b.face = outFace)) :
    pickKey outFace a ≤ pickKey outFace b ↔ b.lastRenewed ≤ a.lastRenewed := by
  unfold pickKey
  rw [Prod.Lex.toLex_le_toLex]
  simp [h]

/-- The candidates are all of the outgoing face, or none is. -/
theorem face_of_mem_candidates {a b : Pit.InRecord} (ha : a ∈ candidates outFace rs)
    (hb : b ∈ candidates outFace rs) : (a.face = outFace) ↔ (b.face = outFace) := by
  unfold candidates at ha hb
  split at ha <;> simp_all

/-- The candidates are records. -/
theorem mem_of_mem_candidates {r : Pit.InRecord} (h : r ∈ candidates outFace rs) : r ∈ rs := by
  unfold candidates at h
  split at h
  · exact (List.mem_filter.mp h).1
  · exact h

/-- The earliest candidate is picked. -/
theorem pickInRecord_spec {r : Pit.InRecord} (h : pickInRecord outFace rs = some r) :
    r ∈ candidates outFace rs ∧ ∀ r' ∈ candidates outFace rs, r.lastRenewed ≤ r'.lastRenewed := by
  obtain ⟨hmem, hmax⟩ := pickInRecord_max h
  have hcandidate : r ∈ candidates outFace rs := by
    unfold candidates
    split
    · rename_i hother
      obtain ⟨r', hr', hface'⟩ := hother
      refine List.mem_filter.mpr ⟨hmem, ?_⟩
      -- a record of the face itself is not greater than one of another face
      by_contra hface
      have hface : r.face = outFace := by simpa using hface
      have hle := hmax r' hr'
      simp [pickKey, Prod.Lex.toLex_le_toLex, hface, hface'] at hle
      exact absurd hle (by decide)
    · exact hmem
  refine ⟨hcandidate, fun r' hr' => ?_⟩
  exact (pickKey_le_iff (face_of_mem_candidates hr' hcandidate)).mp
    (hmax r' (mem_of_mem_candidates hr'))

/-- A record is picked if there is one. -/
theorem exists_pickInRecord (outFace : FaceRef) (h : rs ≠ []) :
    ∃ r, pickInRecord outFace rs = some r := by
  rcases rs with _ | ⟨r, rs⟩
  · exact absurd rfl h
  · exact ⟨_, rfl⟩

/-- The Interest of a record as it is sent. -/
def outgoingInterest (newNonce : Option UInt32) (i : Interest) : Interest :=
  match newNonce with
  | none => i
  | some nonce => i.setNonce nonce

/-- The Interest that is sent is that of a record of another face if there is one; this record is
the latest of these, or of all records if there are no others, exactly if they all were renewed at
the same time. -/
theorem onOutgoingInterest_latest_iff (env : Env σ) (s : Forwarder σ) {p : Pit.EntryId}
    {P : Pit.Entry} (hP : s.pit.entries p = some P) (hne : P.inRecords ≠ []) {outFace : FaceRef}
    (hface : s.faceIds outFace ≠ 0) (hscope : violatesScope env P outFace = false)
    (newNonce : Option UInt32) (now : ℤ) :
    ∃ r, pickInRecord outFace P.inRecords = some r ∧ onOutgoingInterest env s p outFace newNonce now
        = s.sendPicked p P outFace (outgoingInterest newNonce r.interest) now ∧
      r ∈ candidates outFace P.inRecords ∧
      (IsLatest r (candidates outFace P.inRecords) ↔
        ∀ a ∈ candidates outFace P.inRecords, ∀ b ∈ candidates outFace P.inRecords,
          a.lastRenewed = b.lastRenewed) := by
  obtain ⟨r, hr⟩ := exists_pickInRecord outFace hne
  obtain ⟨hmem, hearliest⟩ := pickInRecord_spec hr
  refine ⟨r, hr, ?_, hmem, ?_, fun hall r' hr' => (hall r' hr' r hmem).le⟩
  · simp only [onOutgoingInterest, hP, hface, if_false, hscope, hr]
    rcases newNonce with _ | nonce
    · rfl
    · rfl
  · intro hlatest a ha b hb
    have haeq := le_antisymm (hlatest a ha) (hearliest a ha)
    have hbeq := le_antisymm (hlatest b hb) (hearliest b hb)
    rw [haeq, hbeq]

/-- Two faces ask for `/A`, the second one at the given time. -/
def twoDownstreams (later : ℤ) : Forwarder Unit :=
  (run plainEnv (create ()) [.addFace 1, .addFace 2, .addFace 3,
    .interest 1 { Pit.plainInterest [.generic [0x41]] with nonce := [1, 0, 0, 0] } 0 [],
    .interest 2 { Pit.plainInterest [.generic [0x41]] with nonce := [2, 0, 0, 0] } later
      []]).state

/-- Two downstreams at one time. -/
theorem onOutgoingInterest_latest_iff_twoDownstreams :
    ∃ P r, (twoDownstreams 0).pit.entries 0 = some P ∧ P.inRecords.length = 2 ∧
      pickInRecord 3 P.inRecords = some r ∧ IsLatest r (candidates 3 P.inRecords) := by
  have hentry : ∃ P ∈ (twoDownstreams 0).pit.entries 0, P.inRecords.length = 2 ∧
      violatesScope plainEnv P 3 = false ∧
      ∀ a ∈ candidates 3 P.inRecords, ∀ b ∈ candidates 3 P.inRecords,
        a.lastRenewed = b.lastRenewed := by decide +kernel
  obtain ⟨P, hP, hlength, hscope, hall⟩ := hentry
  have hne : P.inRecords ≠ [] := fun hnil => by simp [hnil] at hlength
  obtain ⟨r, hr, -, -, hiff⟩ := onOutgoingInterest_latest_iff plainEnv (twoDownstreams 0) hP hne
    (by decide +kernel) hscope none 0
  exact ⟨P, r, hP, hlength, hr, hiff.mpr hall⟩

/-- The nonces of the Interests that were sent. -/
def sentNonces (log : List Output) : List (FaceRef × List UInt8) :=
  log.filterMap fun
    | .sendInterest outFace _ i => some (outFace, i.nonce)
    | _ => none

/-- The second Interest comes later, and the first one is sent. -/
theorem earlier_interest_sent : (∃ P ∈ (twoDownstreams 100).pit.entries 0,
      P.inRecords.map (fun r => (r.face, r.lastRenewed, r.interest.nonce))
        = [(2, 100, [2, 0, 0, 0]), (1, 0, [1, 0, 0, 0])]) ∧
    sentNonces (onOutgoingInterest plainEnv (twoDownstreams 100) 0 3 none 200).state.log
      = [(3, [1, 0, 0, 0])] := by
  decide +kernel

end IcnDemo.Forwarder
