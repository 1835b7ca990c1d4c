import IcnDemo.Lib.Runs
import IcnDemo.NameNumber

/-!
# Fetching a segmented object

`SegmentFetcher` asks for any segment of the newest version, and then for the segments 0, 1, 2 and
so on, until one of them says that it is the last.  Their contents are written to one buffer.  It
does not keep its position: whether segment 0 is expected, and any other segment is therefore to be
thrown away, is bound to the callbacks of each Interest.  An Interest that is sent again after a
Nack always expects segment 0.  So the answer to such an Interest for a later segment is thrown
away, and fetching starts from segment 0 again, with the buffer as it is.

`Progress` says where a fetcher is, and `Progress.next` where it goes.  The junk in it is what the
buffer holds from earlier attempts.
-/

namespace IcnDemo

/-- The fields of an Interest that the fetcher sets; the others are those of the base Interest. -/
structure FetchInterest where
  name : Name
  childSelector : ℕ
  mustBeFresh : Bool
deriving DecidableEq, Repr

/-- What the fetcher reads of a Data. -/
structure SegmentData where
  name : Name
  content : List UInt8
  finalBlockId : Component
deriving DecidableEq, Repr

namespace SegmentFetcher

/-- The reasons that are told apart. -/
inductive NackReason where
  | duplicate
  | congestion
  | other
deriving DecidableEq, Repr

/-- `SegmentFetcher::ErrorCode`. -/
inductive ErrorCode where
  | interestTimeout
  | dataHasNoSegment
  | segmentValidationFail
  | nackError
deriving DecidableEq, Repr

/-- Calls of the callbacks; reading the last component of the empty name is undefined. -/
inductive Callback where
  | complete (buffer : List UInt8)
  | error (code : ErrorCode)
  | undefined
deriving DecidableEq, Repr

/-- An Interest that was expressed, with what is bound to its callbacks. -/
structure Pending where
  interest : FetchInterest
  isSegmentZeroExpected : Bool
  reExpressCount : ℕ
deriving DecidableEq, Repr

/-- The buffer, the Interest in flight, the one to be sent again later, and the callbacks called. -/
structure Fetcher where
  buffer : List UInt8
  pending : Option Pending
  scheduled : Option (FetchInterest × ℕ)
  log : List Callback
deriving DecidableEq, Repr

/-- `MAX_INTEREST_REEXPRESS`. -/
def maxInterestReexpress : ℕ := 3

namespace Fetcher

/-- A callback is called. -/
def call (c : Callback) (f : Fetcher) : Fetcher :=
  { f with log := f.log ++ [c] }

variable (interest : FetchInterest) (f : Fetcher)

/-- An Interest is expressed, and the handlers bound to it. -/
def expressInterest (isSegmentZeroExpected : Bool) (reExpressCount : ℕ) (f : Fetcher) : Fetcher :=
  { f with pending := some ⟨interest, isSegmentZeroExpected, reExpressCount⟩ }

/-- `fetchFirstSegment`, called by `fetch`. -/
def fetchFirstSegment (baseInterest : FetchInterest) : Fetcher :=
  expressInterest { baseInterest with childSelector := 1, mustBeFresh := true } true 0
    ⟨[], none, none, []⟩

/-- `fetchNextSegment`. -/
def fetchNextSegment (dataName : Name) (segmentNo : UInt64) (f : Fetcher) : Fetcher :=
  f.expressInterest ⟨dataName.dropLast ++ [.fromSegment segmentNo], 0, false⟩ false 0

/-- `afterValidationSuccess`. -/
def afterValidationSuccess (data : SegmentData) (isSegmentZeroExpected : Bool) (f : Fetcher) :
    Fetcher :=
  match data.name.getLast? with
  | none => f.call .undefined
  | some currentSegment =>
    match currentSegment.toSegment with
    | none => f.call (.error .dataHasNoSegment)
    | some segmentNo =>
      if isSegmentZeroExpected && segmentNo != 0 then f.fetchNextSegment data.name 0
      else
        let f := { f with buffer := f.buffer ++ data.content }
        if data.finalBlockId.empty || data.finalBlockId.compare currentSegment == .gt then
          f.fetchNextSegment data.name (segmentNo + 1)
        else f.call (.complete f.buffer)

/-- `reExpressInterest`. -/
def reExpressInterest (reExpressCount : ℕ) (f : Fetcher) : Fetcher :=
  f.expressInterest interest true (reExpressCount + 1)

/-- `afterNackReceived`. -/
def afterNackReceived (reason : NackReason) (reExpressCount : ℕ) (f : Fetcher) : Fetcher :=
  if reExpressCount ≥ maxInterestReexpress then f.call (.error .nackError)
  else
    match reason with
    | .duplicate => f.reExpressInterest interest reExpressCount
    | .congestion => { f with scheduled := some (interest, reExpressCount) }
    | .other => f.call (.error .nackError)

/-- What may happen to the Interest in flight, and the event of a scheduled one. -/
inductive Event where
  | data (d : SegmentData) (valid : Bool)
  | nack (reason : NackReason)
  | timeout
  | timer
deriving DecidableEq, Repr

/-- The effect of an event. -/
def step : Event → Fetcher
  | .data d valid =>
    match f.pending with
    | none => f
    | some p =>
      let f := { f with pending := none }
      if valid then f.afterValidationSuccess d p.isSegmentZeroExpected
      else f.call (.error .segmentValidationFail)
  | .nack reason =>
    match f.pending with
    | none => f
    | some p =>
      ({ f with pending := none }).afterNackReceived p.interest reason p.reExpressCount
  | .timeout =>
    match f.pending with
    | none => f
    | some _ => ({ f with pending := none }).call (.error .interestTimeout)
  | .timer =>
    match f.scheduled with
    | none => f
    | some (interest, reExpressCount) =>
      ({ f with scheduled := none }).reExpressInterest interest reExpressCount

/-- The state after a run. -/
def run (events : List Event) : Fetcher :=
  events.foldl step f

theorem run_append (es : List Event) (e : Event) : f.run (es ++ [e]) = (f.run es).step e := by
  simp [run]

end Fetcher

open Fetcher

/-! ### Objects -/

/-- A versioned object: the contents of its segments, and which of them, beside the last one, carry
a FinalBlockId. -/
structure Object where
  versionedName : Name
  last : UInt64
  content : ℕ → List UInt8
  marked : ℕ → Bool

namespace Object

variable (o : Object) (k : ℕ)

/-- The name of a segment. -/
def nameOf : Name :=
  o.versionedName ++ [.fromSegment (UInt64.ofNat k)]

/-- The Data of a segment. -/
def segment : SegmentData :=
  ⟨o.nameOf k, o.content k,
    if k = o.last.toNat ∨ o.marked k = true then .fromSegment o.last else .generic []⟩

/-- The contents of the first `k` segments. -/
def upTo : List UInt8 :=
  (List.range k).flatMap o.content

/-- All contents. -/
def whole : List UInt8 :=
  o.upTo (o.last.toNat + 1)

/-- The content with one segment more. -/
theorem upTo_succ : o.upTo (k + 1) = o.upTo k ++ o.content k := by
  simp [upTo, List.range_succ]

@[simp] theorem upTo_zero : o.upTo 0 = [] := rfl

end Object

variable (o : Object) (f : Fetcher) (base : FetchInterest)

/-- An Interest is answered with a segment of the object whose name it is a prefix of, or with a
Nack that lets it be sent again; and what is scheduled is done. -/
def Answers : Event → Prop
  | .data d valid => valid = true ∧ (∃ k, k ≤ o.last.toNat ∧ d = o.segment k) ∧
      ∃ p ∈ f.pending, Name.isPrefixOf p.interest.name d.name = true
  | .nack reason => reason ≠ .other ∧ ∃ p ∈ f.pending, p.reExpressCount < maxInterestReexpress
  | .timeout => False
  | .timer => f.scheduled.isSome

instance : ∀ e, Decidable (Answers o f e)
  | .data _ _ => inferInstanceAs (Decidable (_ ∧ _ ∧ _))
  | .nack _ => inferInstanceAs (Decidable (_ ∧ _))
  | .timeout => inferInstanceAs (Decidable False)
  | .timer => inferInstanceAs (Decidable (_ = true))

variable (events : List Event)

/-- All events of a run are answers. -/
def Served : Prop :=
  Runs.Along Fetcher.step (Answers o) (fetchFirstSegment base) events

/-- A Nack comes for the first Interest, or for a segment before which there is nothing to lose. -/
def SafeStep : Event → Prop
  | .nack _ => ∀ p ∈ f.pending, p.interest.mustBeFresh = false → ∀ k ≤ o.last.toNat,
      p.interest.name = o.nameOf k → o.upTo k = []
  | _ => True

/-- All steps of a run are safe. -/
def SafeRun : Prop :=
  Runs.Along Fetcher.step (SafeStep o) (fetchFirstSegment base) events

/-- A Nack comes for the first Interest, or for segment 0. -/
def EarlyStep : Event → Prop
  | .nack _ => ∀ p ∈ f.pending, p.interest.mustBeFresh = true ∨ p.interest.name = o.nameOf 0
  | _ => True

/-- All steps of a run are early. -/
def EarlyRun : Prop :=
  Runs.Along Fetcher.step (EarlyStep o) (fetchFirstSegment base) events

/-! ### Progress -/

/-- What an Interest is for. -/
inductive Stage where
  | first
  | segment (k : ℕ)
deriving DecidableEq, Repr

/-- The Interest of a stage. -/
def Stage.interest : Stage → FetchInterest
  | first => { base with childSelector := 1, mustBeFresh := true }
  | segment k => ⟨o.nameOf k, 0, false⟩

/-- The segment that is written next. -/
def Stage.position : Stage → ℕ
  | first => 0
  | segment k => k

/-- Where a fetcher is: it waits for an answer, or until it may send an Interest again, or it is
done. -/
inductive Progress where
  | asking (stage : Stage) (zeroExpected : Bool) (count : ℕ) (junk : List UInt8)
  | waiting (stage : Stage) (count : ℕ) (junk : List UInt8)
  | done (junk : List UInt8)
deriving DecidableEq, Repr

namespace Progress

/-- Segment `k` has been written. -/
def advance (o : Object) (k : ℕ) (junk : List UInt8) : Progress :=
  if k < o.last.toNat then asking (.segment (k + 1)) false 0 junk else done junk

/-- What one event does; for Data, the number of the segment is given. -/
inductive Label where
  | data (k : ℕ)
  | duplicate
  | congestion
  | timer
deriving DecidableEq, Repr

/-- How the progress goes on. -/
def next (o : Object) : Progress → Label → Progress
  | asking stage zeroExpected _ junk, .data k =>
    if zeroExpected = true ∧ k ≠ 0 then
      asking (.segment 0) false 0 (junk ++ o.upTo stage.position)
    else advance o k junk
  | asking stage _ count junk, .duplicate => asking stage true (count + 1) junk
  | asking stage _ count junk, .congestion => waiting stage count junk
  | waiting stage count junk, .timer => asking stage true (count + 1) junk
  | p, _ => p

/-- The fetcher is there. -/
def Is (o : Object) (base : FetchInterest) (f : Fetcher) : Progress → Prop
  | asking stage zeroExpected count junk =>
    f = ⟨junk ++ o.upTo stage.position, some ⟨stage.interest o base, zeroExpected, count⟩, none,
      []⟩ ∧
      stage.position ≤ o.last.toNat ∧ (stage = .first → zeroExpected = true)
  | waiting stage count junk =>
    f = ⟨junk ++ o.upTo stage.position, none, some (stage.interest o base, count), []⟩ ∧
      stage.position ≤ o.last.toNat
  | done junk => f = ⟨junk ++ o.whole, none, none, [.complete (junk ++ o.whole)]⟩

/-- Nothing of an earlier attempt is in the buffer, nor will be. -/
def Clean (o : Object) : Progress → Prop
  | asking stage zeroExpected _ junk =>
    junk = [] ∧ (zeroExpected = true → o.upTo stage.position = [])
  | waiting stage _ junk => junk = [] ∧ o.upTo stage.position = []
  | done junk => junk = []

end Progress

/-! ### Steps -/

namespace Object

variable {o : Object} {k : ℕ}

/-- A segment number has 64 bits. -/
theorem lt_size (h : k ≤ o.last.toNat) : k < 2 ^ 64 := by
  have := o.last.toNat_lt
  omega

/-- A segment number is the number. -/
theorem toNat_ofNat (h : k ≤ o.last.toNat) : (UInt64.ofNat k).toNat = k :=
  UInt64.toNat_ofNat_of_lt' (lt_size h)

/-- The first segment has number 0. -/
theorem ofNat_eq_zero_iff (h : k ≤ o.last.toNat) : UInt64.ofNat k = 0 ↔ k = 0 := by
  rw [← UInt64.toNat_inj, toNat_ofNat h]
  rfl

/-- The names of the segments are no prefixes of each other. -/
theorem eq_of_isPrefixOf {j k : ℕ} (hj : j ≤ o.last.toNat) (hk : k ≤ o.last.toNat)
    (h : Name.isPrefixOf (o.nameOf j) (o.nameOf k) = true) : j = k := by
  have hvalues := Name.isPrefixOf_iff.mp h
  simp only [Name.values, nameOf, List.map_append, List.prefix_append_right_inj] at hvalues
  have heq : (Component.fromSegment (UInt64.ofNat j)).value =
      (Component.fromSegment (UInt64.ofNat k)).value := by simpa using hvalues
  have hnumber := Component.fromSegment_injective (congrArg Component.generic heq)
  rw [← toNat_ofNat hj, hnumber, toNat_ofNat hk]

/-- A segment says that there are more unless it is the last. -/
theorem segment_continues_iff (h : k ≤ o.last.toNat) : ((o.segment k).finalBlockId.empty ||
      (o.segment k).finalBlockId.compare (.fromSegment (UInt64.ofNat k)) == .gt) = true ↔
      k < o.last.toNat := by
  unfold segment
  by_cases hmarked : k = o.last.toNat ∨ o.marked k = true
  · grind [Component.empty_fromSegment, Component.compare_fromSegment, toNat_ofNat,
      compare_gt_iff_gt]
  · simp only [if_neg hmarked]
    refine iff_of_true rfl (by omega)

end Object

open Object

namespace Progress

variable {o : Object} {base : FetchInterest} {f : Fetcher} {stage : Stage} {zeroExpected : Bool}
  {count : ℕ} {junk : List UInt8}

/-- A segment is written. -/
theorem is_write {k : ℕ} (hk : k ≤ o.last.toNat) (hposition : stage.position = k)
    (hzero : ¬ (zeroExpected = true ∧ k ≠ 0)) :
    Is o base (afterValidationSuccess (o.segment k) zeroExpected
        ⟨junk ++ o.upTo stage.position, none, none, []⟩)
      (advance o k junk) := by
  have hlast : (o.segment k).name.getLast? = some (.fromSegment (UInt64.ofNat k)) := by
    simp [Object.segment, nameOf]
  have hcond : (zeroExpected && UInt64.ofNat k != 0) = false := by simp_all
  have hbuffer : junk ++ o.upTo stage.position ++ (o.segment k).content =
      junk ++ o.upTo (k + 1) := by
    rw [hposition, upTo_succ, List.append_assoc]
    rfl
  simp only [afterValidationSuccess, hlast, Component.toSegment_fromSegment, hcond, hbuffer]
  unfold advance
  by_cases hcontinue : k < o.last.toNat
  · have hfinal := (segment_continues_iff hk).mpr hcontinue
    have hdrop : (o.segment k).name.dropLast = o.versionedName := by
      simp [Object.segment, nameOf]
    rw [if_pos hcontinue]
    simp only [hfinal, Bool.false_eq_true, if_false, if_true]
    refine ⟨?_, hcontinue, fun h => by cases h⟩
    have hsucc : UInt64.ofNat k + 1 = UInt64.ofNat (k + 1) := by simp
    simp only [fetchNextSegment, expressInterest, hdrop, Stage.interest, Stage.position,
      nameOf, hsucc]
  · have hfinal : ((o.segment k).finalBlockId.empty ||
        (o.segment k).finalBlockId.compare (.fromSegment (UInt64.ofNat k)) == .gt) = false := by
      rw [← Bool.not_eq_true, segment_continues_iff hk]
      exact hcontinue
    obtain rfl : k = o.last.toNat := by omega
    rw [if_neg hcontinue]
    simp only [hfinal, Bool.false_eq_true, if_false]
    rfl

/-- A segment arrives for the Interest. -/
theorem Is.data (h : Is o base f (asking stage zeroExpected count junk)) {k : ℕ}
    (hk : k ≤ o.last.toNat)
    (hmatch : Name.isPrefixOf (stage.interest o base).name (o.segment k).name = true) :
    (∀ j, stage = .segment j → k = j) ∧ Is o base (f.step (.data (o.segment k) true))
        ((asking stage zeroExpected count junk).next o (.data k)) := by
  obtain ⟨rfl, hposition, hfirst⟩ := h
  have hsame : ∀ j, stage = .segment j → k = j := by
    rintro j rfl
    exact (eq_of_isPrefixOf hposition hk hmatch).symm
  refine ⟨hsame, ?_⟩
  simp only [step, if_true, next]
  by_cases hzero : zeroExpected = true ∧ k ≠ 0
  · rw [if_pos hzero]
    have hnumber : (UInt64.ofNat k != 0) = true := by
      simpa [ofNat_eq_zero_iff hk] using hzero.2
    refine ⟨?_, Nat.zero_le _, fun h => by cases h⟩
    simp [afterValidationSuccess, Object.segment, nameOf, hzero.1, hnumber,
      fetchNextSegment, expressInterest, Stage.interest, Stage.position]
  rw [if_neg hzero]
  refine is_write hk ?_ hzero
  cases stage with
  | first =>
    have hk0 : k = 0 := by
      by_contra hne
      exact hzero ⟨hfirst rfl, hne⟩
    exact hk0.symm
  | segment j => exact (hsame j rfl).symm

/-- A Nack arrives that makes the fetcher try again. -/
theorem Is.nack (h : Is o base f (asking stage zeroExpected count junk)) {reason : NackReason}
    (hreason : reason ≠ .other) (hcount : count < maxInterestReexpress) :
    Is o base (f.step (.nack reason)) ((asking stage zeroExpected count junk).next o .duplicate) ∨
      Is o base (f.step (.nack reason))
        ((asking stage zeroExpected count junk).next o .congestion) := by
  obtain ⟨rfl, hposition, -⟩ := h
  have hlimit : ¬ count ≥ maxInterestReexpress := by omega
  cases reason with
  | duplicate =>
    left
    simp only [step, afterNackReceived, if_neg hlimit]
    exact ⟨rfl, hposition, fun _ => rfl⟩
  | congestion =>
    right
    simp only [step, afterNackReceived, if_neg hlimit]
    exact ⟨rfl, hposition⟩
  | other => exact absurd rfl hreason

/-- The timer of a congestion fires. -/
theorem Is.timer (h : Is o base f (waiting stage count junk)) :
    Is o base (f.step .timer) ((waiting stage count junk).next o .timer) := by
  obtain ⟨rfl, hposition⟩ := h
  exact ⟨rfl, hposition, fun _ => rfl⟩

/-- What an answer does to the progress. -/
theorem Is.step_cases {p : Progress} (h : Is o base f p) {e : Event} (ha : Answers o f e) :
    (∃ stage zeroExpected count junk k, p = asking stage zeroExpected count junk ∧
      (∃ d, e = .data d true) ∧ k ≤ o.last.toNat ∧ (∀ j, stage = .segment j → k = j) ∧
      (stage = .first → zeroExpected = true) ∧
      Is o base (f.step e) (p.next o (.data k))) ∨
    (∃ stage zeroExpected count junk, p = asking stage zeroExpected count junk ∧
      (∃ reason, e = .nack reason) ∧ count < maxInterestReexpress ∧
      (Is o base (f.step e) (p.next o .duplicate) ∨ Is o base (f.step e) (p.next o .congestion))) ∨
    (∃ stage count junk, p = waiting stage count junk ∧ e = .timer ∧
      Is o base (f.step e) (p.next o .timer)) := by
  have hidle (hpending : f.pending = none) : e = .timer := by
    cases e with
    | data d valid =>
      obtain ⟨-, -, q, hq, -⟩ := ha
      simp [hpending] at hq
    | nack reason =>
      obtain ⟨-, q, hq, -⟩ := ha
      simp [hpending] at hq
    | timeout => exact ha.elim
    | timer => rfl
  cases p with
  | asking stage zeroExpected count junk =>
    have hpending : f.pending = some ⟨stage.interest o base, zeroExpected, count⟩ := by rw [h.1]
    have hscheduled : f.scheduled = none := by rw [h.1]
    cases e with
    | data d valid =>
      obtain ⟨rfl, ⟨k, hk, rfl⟩, q, hq, hmatch⟩ := ha
      rw [hpending] at hq
      cases hq
      obtain ⟨hsame, his⟩ := h.data hk hmatch
      exact .inl ⟨_, _, _, _, k, rfl, ⟨_, rfl⟩, hk, hsame, h.2.2, his⟩
    | nack reason =>
      obtain ⟨hreason, q, hq, hcount⟩ := ha
      grind [h.nack]
    | timeout => exact ha.elim
    | timer => simp [Answers, hscheduled] at ha
  | waiting stage count junk =>
    obtain rfl := hidle (by rw [h.1])
    exact .inr (.inr ⟨_, _, _, rfl, rfl, h.timer⟩)
  | done junk =>
    have hf : f = _ := h
    obtain rfl := hidle (by rw [hf])
    simp [Answers, hf] at ha

end Progress

/-! ### Runs -/

namespace Progress

variable {o : Object} {base : FetchInterest} {f : Fetcher}

/-- The progress at the beginning. -/
theorem is_fetchFirstSegment : Is o base (fetchFirstSegment base) (asking .first true 0 []) :=
  ⟨rfl, Nat.zero_le _, fun _ => rfl⟩

/-- A Nack is safe before anything was written. -/
theorem safeStep_nack_iff {stage : Stage} {zeroExpected : Bool} {count : ℕ} {junk : List UInt8}
    (h : Is o base f (asking stage zeroExpected count junk)) (reason : NackReason) :
    SafeStep o f (.nack reason) ↔ o.upTo stage.position = [] := by
  obtain ⟨rfl, hposition, -⟩ := h
  cases stage with
  | first => simp [SafeStep, Stage.interest, Stage.position]
  | segment k =>
    simp only [SafeStep, Option.mem_def, Option.some.injEq, forall_eq', Stage.interest,
      forall_const, Stage.position]
    constructor
    · intro hall
      exact hall k hposition rfl
    · intro hnil j hj heq
      have hsame := eq_of_isPrefixOf hposition hj
        (Name.isPrefixOf_of_initial (heq ▸ List.prefix_refl _))
      rwa [← hsame]

/-- The content stays clean exactly if the step is safe. -/
theorem clean_step {p : Progress} (h : Is o base f p) {e : Event} (ha : Answers o f e) :
    ∃ p', Is o base (f.step e) p' ∧ (p'.Clean o ↔ p.Clean o ∧ SafeStep o f e) := by
  rcases h.step_cases ha with
    ⟨stage, zeroExpected, count, junk, k, rfl, ⟨d, rfl⟩, hk, hsame, hfirst, his⟩ |
    ⟨stage, zeroExpected, count, junk, rfl, ⟨reason, rfl⟩, -, his⟩ |
    ⟨stage, count, junk, rfl, rfl, his⟩
  · refine ⟨_, his, ?_⟩
    simp only [SafeStep, and_true, next]
    by_cases hzero : zeroExpected = true ∧ k ≠ 0
    · rw [if_pos hzero]
      simp [Clean, hzero.1]
    -- what is written next is segment 0 where that is expected
    have hposition : zeroExpected = true → o.upTo stage.position = [] := by
      intro hz
      have hk0 : k = 0 := by
        by_contra hne
        exact hzero ⟨hz, hne⟩
      cases stage with
      | first => rfl
      | segment j => rw [← hsame j rfl, hk0, Stage.position, upTo_zero]
    grind [advance, Clean]
  · grind [safeStep_nack_iff, next, Clean]
  · refine ⟨_, his, ?_⟩
    simp [SafeStep, next, Clean]

/-- The content is clean exactly if the run is safe. -/
theorem clean_run {events : List Event} (h : Served o base events) :
    ∃ p, Is o base ((fetchFirstSegment base).run events) p ∧
      (p.Clean o ↔ SafeRun o base events) := by
  induction events using List.reverseRecOn with
  | nil =>
    exact ⟨_, is_fetchFirstSegment, iff_of_true ⟨rfl, fun _ => rfl⟩ trivial⟩
  | append_singleton es e ih =>
    obtain ⟨hes, he⟩ := Runs.along_concat.mp h
    obtain ⟨p, his, hclean⟩ := ih hes
    obtain ⟨p', his', hclean'⟩ := clean_step his he
    rw [run_append]
    refine ⟨p', his', hclean'.trans ?_⟩
    rw [hclean]
    exact Runs.along_concat.symm

/-! ### The number of events -/

/-- The number of Interests with names of their own that are still to be sent. -/
def Stage.rest (o : Object) : Stage → ℕ
  | .first => o.last.toNat + 1
  | .segment k => o.last.toNat - k

/-- How many events may still come: seven for each Interest, that is, three Nacks, three timers and
the Data. -/
def left (o : Object) : Progress → ℕ
  | asking stage _ count _ => 7 * Stage.rest o stage + 2 * (maxInterestReexpress - count) + 1
  | waiting stage count _ => 7 * Stage.rest o stage + 2 * (maxInterestReexpress - count)
  | done _ => 0

/-- Segment 0 is expected only where it is asked for. -/
def Early : Progress → Prop
  | asking stage zeroExpected _ _ => zeroExpected = true → stage.position = 0
  | waiting stage count _ => stage.position = 0 ∧ count < maxInterestReexpress
  | done _ => True

/-- An early step leaves less to do. -/
theorem left_step {p : Progress} (h : Is o base f p) (hearly : p.Early) {e : Event}
    (ha : Answers o f e) (he : EarlyStep o f e) :
    ∃ p', Is o base (f.step e) p' ∧ p'.Early ∧ p'.left o + 1 ≤ p.left o := by
  rcases h.step_cases ha with
    ⟨stage, zeroExpected, count, junk, k, rfl, ⟨d, rfl⟩, hk, hsame, hfirst, his⟩ |
    ⟨stage, zeroExpected, count, junk, rfl, ⟨reason, rfl⟩, hcount, his⟩ |
    ⟨stage, count, junk, rfl, rfl, his⟩
  · refine ⟨_, his, ?_⟩
    simp only [next]
    by_cases hzero : zeroExpected = true ∧ k ≠ 0
    · -- this is the answer to the first Interest
      have hstage : stage = .first := by
        cases stage with
        | first => rfl
        | segment j =>
          have hj : j = 0 := hearly hzero.1
          exact absurd ((hsame j rfl).trans hj) hzero.2
      rw [if_pos hzero, hstage]
      refine ⟨fun hf => absurd hf Bool.false_ne_true, ?_⟩
      simp only [left, Stage.rest, maxInterestReexpress]
      omega
    rw [if_neg hzero]
    unfold advance
    split
    · refine ⟨fun hf => absurd hf Bool.false_ne_true, ?_⟩
      cases stage with
      | first =>
        simp only [left, Stage.rest, maxInterestReexpress]
        omega
      | segment j =>
        have hj := hsame j rfl
        simp only [left, Stage.rest, maxInterestReexpress]
        omega
    · refine ⟨trivial, ?_⟩
      simp only [left]
      omega
  · -- a Nack does not come for a later segment
    have hposition : stage.position = 0 := by
      obtain ⟨rfl, hle, -⟩ := h
      cases stage with
      | first => rfl
      | segment j =>
        have hname : o.nameOf j = o.nameOf 0 := by
          simpa [EarlyStep, Stage.interest] using he
        exact eq_of_isPrefixOf hle (Nat.zero_le _)
          (Name.isPrefixOf_of_initial (hname ▸ List.prefix_refl _))
    rcases his with his | his
    · refine ⟨_, his, fun _ => hposition, ?_⟩
      simp only [next, left]
      omega
    · refine ⟨_, his, ⟨hposition, hcount⟩, ?_⟩
      simp only [next, left]
      omega
  · obtain ⟨hposition, hcount⟩ := hearly
    refine ⟨_, his, fun _ => hposition, ?_⟩
    simp only [next, left]
    omega

/-- An early run ends. -/
theorem left_run {events : List Event} (h : Served o base events)
    (hearly : EarlyRun o base events) :
    ∃ p, Is o base ((fetchFirstSegment base).run events) p ∧ p.Early ∧
      events.length + p.left o ≤ 7 * (o.last.toNat + 2) := by
  induction events using List.reverseRecOn with
  | nil =>
    refine ⟨_, is_fetchFirstSegment, fun _ => rfl, ?_⟩
    simp only [left, Stage.rest, maxInterestReexpress, List.length_nil]
    omega
  | append_singleton es e ih =>
    obtain ⟨hes, he⟩ := Runs.along_concat.mp h
    obtain ⟨hesearly, heearly⟩ := Runs.along_concat.mp hearly
    obtain ⟨p, his, hp, hleft⟩ := ih hes hesearly
    obtain ⟨p', his', hp', hstep⟩ := left_step his hp he heearly
    grind [run_append]

end Progress

/-- The fetcher awaits an answer, or a timer. -/
def Awaits : Prop :=
  f.pending.isSome ∨ f.scheduled.isSome

/-- A fetcher whose Interests are answered calls the complete callback once and no other, with the
contents of all segments if and only if its run was safe.  Until then something is awaited, and if
Nacks come only for the first Interest and for segment 0, the number of events is bounded. -/
theorem complete_iff_safeRun (o : Object) (base : FetchInterest) (events : List Event)
    (h : Served o base events) :
    (((fetchFirstSegment base).run events).log ≠ [] →
      (((fetchFirstSegment base).run events).log = [.complete o.whole] ↔ SafeRun o base events)) ∧
      (((fetchFirstSegment base).run events).log = [] →
        Awaits ((fetchFirstSegment base).run events)) ∧
      (EarlyRun o base events → events.length ≤ 7 * (o.last.toNat + 2)) := by
  obtain ⟨p, his, hclean⟩ := Progress.clean_run h
  refine ⟨fun hlog => ?_, fun hlog => ?_, fun hearly => ?_⟩
  · rw [← hclean]
    cases p with
    | asking stage zeroExpected count junk =>
      rw [his.1] at hlog
      exact absurd rfl hlog
    | waiting stage count junk =>
      rw [his.1] at hlog
      exact absurd rfl hlog
    | done junk =>
      rw [show _ = _ from his]
      simp [Progress.Clean]
  · cases p with
    | asking stage zeroExpected count junk =>
      rw [his.1]
      exact .inl rfl
    | waiting stage count junk =>
      rw [his.1]
      exact .inr rfl
    | done junk =>
      rw [show _ = _ from his] at hlog
      cases hlog
  · obtain ⟨p, -, -, hle⟩ := Progress.left_run h hearly
    omega

/-- Three segments of one octet each. -/
def threeSegments : Object :=
  ⟨[.generic [97], .fromVersion 1], 2, fun k => [UInt8.ofNat k], fun _ => false⟩

/-- An Interest for the newest version. -/
def baseInterest : FetchInterest :=
  ⟨[.generic [97]], 0, false⟩

/-- The first Interest gets two Nacks and then segment 2, the one for segment 0 gets a Nack. -/
def earlyNacks : List Event :=
  [.nack .congestion, .timer, .nack .duplicate, .data (threeSegments.segment 2) true,
    .nack .duplicate, .data (threeSegments.segment 0) true,
    .data (threeSegments.segment 1) true, .data (threeSegments.segment 2) true]

/-- A run with Nacks before the first segment. -/
theorem complete_iff_safeRun_earlyNacks : Served threeSegments baseInterest earlyNacks ∧
      ((fetchFirstSegment baseInterest).run earlyNacks).log = [.complete [0, 1, 2]] ∧
      SafeRun threeSegments baseInterest earlyNacks := by
  have hserved : Served threeSegments baseInterest earlyNacks := by
    unfold Served
    decide +kernel
  have hlog : ((fetchFirstSegment baseInterest).run earlyNacks).log = [.complete [0, 1, 2]] := by
    decide +kernel
  have hiff := (complete_iff_safeRun threeSegments baseInterest earlyNacks hserved).1
  exact ⟨hserved, hlog, (hiff (by simp [hlog])).mp hlog⟩

/-- The Interest for segment 1 gets a Nack. -/
def lateNack : List Event :=
  [.data (threeSegments.segment 0) true, .nack .duplicate, .data (threeSegments.segment 1) true,
    .data (threeSegments.segment 0) true, .data (threeSegments.segment 1) true,
    .data (threeSegments.segment 2) true]

/-- Then the content of segment 0 is twice in the buffer. -/
theorem complete_with_segment_twice :
    Served threeSegments baseInterest lateNack ∧ threeSegments.whole = [0, 1, 2] ∧
      ((fetchFirstSegment baseInterest).run lateNack).log = [.complete [0, 0, 1, 2]] := by
  refine ⟨?_, by decide +kernel, by decide +kernel⟩
  unfold Served
  decide +kernel

end SegmentFetcher

end IcnDemo
