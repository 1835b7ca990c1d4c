import IcnDemo.Uri
import IcnDemo.Validator.Replay

/-!
# The validator of command Interests

`CommandInterestValidator` keeps what it was told about trust in two places: a list of scopes, each
a pattern of Interest names and a pattern of signer names, and a map from key names to keys.
`addInterestRule` writes to both.  The scope goes to the end of the list, but the key takes the
place of an earlier one of the same name.  It is written first, so that it stays written when the
pattern does not compile.

Patterns and the verification of signatures are parameters.  The `try` block of `checkPolicy` is
left by a `return`, by an exception, or at its end.
-/

namespace IcnDemo

open List Security

/-- What the validator uses of the regular expressions over names. -/
structure Regexes (ρ : Type) where
  compile : Conf.Text → Option ρ
  matchName : ρ → Name → Bool

/-- `Validator::verifySignature` of bytes, a signature and a key. -/
def Verify (κ : Type) : Type :=
  List UInt8 → Signature → κ → Bool

namespace CommandInterest

variable {κ ρ : Type}

/-- `SecRuleSpecific`; one that is exempted has no pattern for the signer. -/
structure Scope (ρ : Type) where
  interestRegex : ρ
  signer : Option Name

/-- The pattern that `Regex::fromName` makes of a key name compares components as URIs. -/
def signerMatches (keyName signer : Name) : Bool :=
  signer.map Component.toUri == keyName.map Component.toUri

variable (interestName : Name) (R : Regexes ρ) (verify : Verify κ) (graceInterval : ℤ)

/-- `SecRuleSpecific::satisfy`. -/
def Scope.satisfy (scope : Scope ρ) (interestName signerName : Name) : Bool :=
  match scope.signer with
  | none => R.matchName scope.interestRegex interestName
  | some keyName =>
    R.matchName scope.interestRegex interestName && signerMatches keyName signerName

/-- `m_trustAnchorsForInterest`.  Looking a key up with `operator[]` may put a default value there,
which is no key. -/
abbrev Anchors (κ : Type) : Type :=
  List (Name × Option κ)

namespace Anchors

/-- What the map has for a key name. -/
def find (m : Anchors κ) (keyName : Name) : Option (Option κ) :=
  lookup keyName m

/-- Assignment through `operator[]`. -/
def assign (keyName : Name) (key : κ) (m : Anchors κ) : Anchors κ :=
  (keyName, some key) :: m.filter fun e => e.1 != keyName

/-- The effect of `operator[]` on the map. -/
def touch (keyName : Name) (m : Anchors κ) : Anchors κ :=
  if (m.find keyName).isSome then m else (keyName, none) :: m

end Anchors

/-- The state of a validator. -/
structure State (κ ρ : Type) where
  trustAnchors : Anchors κ
  trustScopes : List (Scope ρ)
  lastTimestamp : Validator.LastTimestampMap

/-- The texts given to `onValidationFailed`. -/
inductive FailInfo where
  | notSigned (interest : Name)
  | requireSignatureSha256WithRsa
  | keyLocatorNotName
  | signerNotAuthorized (keyName : Name)
  | cannotBeValidated (interest : Name)
  | notInGraceInterval (interest : Name)
  | outdated (interest : Name)
  | noValidSignature
  | cannotLocateKey
  | cannotDecodeTlvs
deriving DecidableEq, Repr

/-- Calls of the two callbacks. -/
inductive Call where
  | validated (interest : Name)
  | failed (interest : Name) (info : FailInfo)
deriving DecidableEq, Repr

/-- The Interest that a callback gets. -/
def Call.interest : Call → Name
  | validated n => n
  | failed n _ => n

/-- The classes of exceptions that are thrown in the `try` block. -/
inductive Thrown where
  | signatureError
  | certificateError
  | tlvError
deriving DecidableEq, Repr

/-- How the `try` block is left. -/
inductive Exit where
  | returns (call : Call)
  | throws (e : Thrown)
  | falls
deriving DecidableEq, Repr

/-! ### Operations -/

/-- `addInterestRule`.  If the pattern does not compile, an exception leaves it after the first of
the two writes. -/
def addInterestRule (regex : Conf.Text) (keyName : Name) (key : κ) (st : State κ ρ) : State κ ρ :=
  let st := { st with trustAnchors := st.trustAnchors.assign keyName key }
  match R.compile regex with
  | none => st
  | some r => { st with trustScopes := st.trustScopes ++ [⟨r, some keyName⟩] }

/-- `addInterestBypassRule`. -/
def addInterestBypassRule (regex : Conf.Text) (st : State κ ρ) : State κ ρ :=
  match R.compile regex with
  | none => st
  | some r => { st with trustScopes := st.trustScopes ++ [⟨r, none⟩] }

/-- `reset`.  The timestamps stay. -/
def reset (st : State κ ρ) : State κ ρ :=
  { st with trustAnchors := [], trustScopes := [] }

/-- The signature of an Interest and the name of the key that it says it is signed with. -/
def locateKey : Except Exit (Signature × Name) :=
  match signatureOf interestName with
  | none => .error (.throws .tlvError)
  | some signature =>
    if signature.type ≠ signatureSha256WithRsa then
      .error (.returns (.failed interestName .requireSignatureSha256WithRsa))
    else
      match signature.keyLocator with
      -- thrown by the constructor of `SignatureSha256WithRsa`
      | none => .error (.throws .signatureError)
      | some (.name certificateName) =>
        match certificateNameToPublicKeyName certificateName with
        | none => .error (.throws .certificateError)
        | some keyName => .ok (signature, keyName)
      | some _ => .error (.returns (.failed interestName .keyLocatorNotName))

/-- `m_graceInterval`; a negative one is replaced by the default. -/
def grace : ℤ :=
  if graceInterval < 0 then 3000 * 10 ^ 6 else graceInterval

variable (now : ℤ)

/-- The check of the timestamp and its update. -/
def checkTimestamp (interestName keyName : Name)
    (m : Validator.LastTimestampMap) : Validator.LastTimestampMap × Exit :=
  match interestTime interestName with
  | none => (m, .throws .tlvError)
  | some time =>
    match m.find keyName with
    | none =>
      if now - grace graceInterval ≤ time ∧ time ≤ now + grace graceInterval then
        (m.assign keyName time, .falls)
      else (m, .returns (.failed interestName (.notInGraceInterval interestName)))
    | some last =>
      if time ≤ last then (m, .returns (.failed interestName (.outdated interestName)))
      else (m.assign keyName time, .falls)

/-- Whether the signature verifies with the key of that name; a default key verifies nothing. -/
def verifies (anchors : Anchors κ) (interestName : Name) (sig : Signature)
    (keyName : Name) : Bool :=
  match anchors.find keyName with
  | some (some key) => verify (signedPortion interestName) sig key
  | _ => false

/-- The `try` block of `checkPolicy`. -/
def tryBlock (interestName : Name) (st : State κ ρ) : State κ ρ × Exit :=
  match locateKey interestName with
  | .error e => (st, e)
  | .ok (sig, keyName) =>
    match st.trustScopes.find? fun scope => scope.satisfy R interestName keyName with
    | none => (st, .returns (.failed interestName (.signerNotAuthorized keyName)))
    | some scope =>
      if scope.signer.isNone then (st, .returns (.validated interestName))
      else
        let anchors := st.trustAnchors.touch keyName
        let st := { st with trustAnchors := anchors }
        if verifies verify anchors interestName sig keyName then
          let r := checkTimestamp graceInterval now interestName keyName st.lastTimestamp
          ({ st with lastTimestamp := r.1 }, r.2)
        else (st, .returns (.failed interestName (.cannotBeValidated interestName)))

/-- The handlers. -/
def Thrown.info : Thrown → FailInfo
  | signatureError => .noValidSignature
  | certificateError => .cannotLocateKey
  | tlvError => .cannotDecodeTlvs

/-- `checkPolicy` of an Interest, with the calls that it makes. -/
def checkPolicy (interestName : Name) (st : State κ ρ) : State κ ρ × List Call :=
  if interestName.length < minLength then
    (st, [.failed interestName (.notSigned interestName)])
  else
    let r := tryBlock R verify graceInterval now interestName st
    match r.2 with
    | .returns call => (r.1, [call])
    | .throws e => (r.1, [.failed interestName e.info])
    | .falls => (r.1, [.validated interestName])

/-! ### Runs -/

/-- What happens to a validator. -/
inductive Event (κ : Type) where
  | addInterestRule (regex : Conf.Text) (keyName : Name) (key : κ)
  | addInterestBypassRule (regex : Conf.Text)
  | reset
  | checkPolicy (now : ℤ) (interest : Name)

/-- A validator and the calls that it has made. -/
structure World (κ ρ : Type) where
  state : State κ ρ
  log : List Call

/-- A new validator. -/
def World.init : World κ ρ :=
  ⟨⟨[], [], []⟩, []⟩

/-- The effect of an event. -/
def step (w : World κ ρ) : Event κ → World κ ρ
  | .addInterestRule regex keyName key =>
    { w with state := addInterestRule R regex keyName key w.state }
  | .addInterestBypassRule regex => { w with state := addInterestBypassRule R regex w.state }
  | .reset => { w with state := reset w.state }
  | .checkPolicy now interest =>
    let r := checkPolicy R verify graceInterval now interest w.state
    { state := r.1, log := w.log ++ r.2 }

/-- The state after a run. -/
def run (w : World κ ρ) (events : List (Event κ)) : World κ ρ :=
  events.foldl (step R verify graceInterval) w

theorem run_append (w : World κ ρ) (es : List (Event κ)) (e : Event κ) :
    run R verify graceInterval w (es ++ [e]) =
      step R verify graceInterval (run R verify graceInterval w es) e := by
  simp [run]

/-- The Interests accepted, in order. -/
def accepted (log : List Call) : List Name :=
  log.filterMap fun
    | .validated n => some n
    | .failed _ _ => none

/-- The Interests checked, in order. -/
def checked (events : List (Event κ)) : List Name :=
  events.filterMap fun
    | .checkPolicy _ n => some n
    | _ => none

/-- An event other than the addition of a rule that allows any signer. -/
def Event.NoBypass : Event κ → Prop
  | .addInterestBypassRule _ => False
  | _ => True

/-- The key name in the key locator of an Interest. -/
def keyNameOf : Option Name :=
  (locateKey interestName).toOption.map Prod.snd

/-! ### What one check does -/

/-- No scope lets any signer through. -/
def NoneExempted (st : State κ ρ) : Prop :=
  ∀ scope ∈ st.trustScopes, scope.signer.isSome

/-- A timestamp is fresh for a key. -/
def Fresh (m : Validator.LastTimestampMap) (keyName : Name) (time : ℤ) : Prop :=
  match m.find keyName with
  | none => now - grace graceInterval ≤ time ∧ time ≤ now + grace graceInterval
  | some last => last < time

/-- What it takes to be accepted: a key, a scope, a signature and a timestamp. -/
def Accepts (interestName : Name) (st : State κ ρ) (keyName : Name) (time : ℤ) : Prop :=
  minLength ≤ interestName.length ∧ ∃ sig, locateKey interestName = .ok (sig, keyName) ∧
    (∃ scope ∈ st.trustScopes, scope.satisfy R interestName keyName = true) ∧
    (∃ key, st.trustAnchors.find keyName = some (some key) ∧
      verify (signedPortion interestName) sig key = true) ∧
    interestTime interestName = some time ∧ Fresh graceInterval now st.lastTimestamp keyName time

/-- A lookup through `operator[]` makes no key. -/
theorem find_touch (m : Anchors κ) (keyName keyName' : Name) (key : κ) :
    (m.touch keyName).find keyName' = some (some key) ↔ m.find keyName' = some (some key) := by
  unfold Anchors.touch
  by_cases hsome : (m.find keyName).isSome = true
  · rw [if_pos hsome]
  · grind [Anchors.find]

/-- A signature is verified with the key of its name. -/
theorem verifies_touch_iff {verify : Verify κ} {m : Anchors κ} {interestName keyName : Name}
    {sig : Signature} :
    verifies verify (m.touch keyName) interestName sig keyName = true ↔
      ∃ key, m.find keyName = some (some key) ∧
        verify (signedPortion interestName) sig key = true := by grind [verifies, find_touch]

/-- Keys, scopes and timestamps after a check: a refused one changes at most what `operator[]`
changes. -/
structure Checked (R : Regexes ρ) (verify : Verify κ) (graceInterval now : ℤ) (interestName : Name)
    (st st' : State κ ρ) (calls : List Call) : Prop where
  /-- The scopes stay. -/
  scopes : st'.trustScopes = st.trustScopes
  /-- So do the keys. -/
  keys : ∀ keyName key, st'.trustAnchors.find keyName = some (some key) ↔
    st.trustAnchors.find keyName = some (some key)
  /-- There is one call, and it says whether the timestamp has been noted. -/
  decision : (∃ keyName time, Accepts R verify graceInterval now interestName st keyName time ∧
      calls = [.validated interestName] ∧
      st'.lastTimestamp = st.lastTimestamp.assign keyName time) ∨
    ((¬ ∃ keyName time, Accepts R verify graceInterval now interestName st keyName time) ∧
      (∃ info, calls = [.failed interestName info]) ∧ st'.lastTimestamp = st.lastTimestamp)

section

variable {R : Regexes ρ} {verify : Verify κ} {graceInterval now : ℤ} {interestName : Name}

/-- A fresh timestamp is kept, and another one refused. -/
theorem checkTimestamp_cases (graceInterval now : ℤ) (interestName keyName : Name)
    (m : Validator.LastTimestampMap) :
    (∃ time, interestTime interestName = some time ∧ Fresh graceInterval now m keyName time ∧
      checkTimestamp graceInterval now interestName keyName m = (m.assign keyName time, .falls)) ∨
    ((∀ time, interestTime interestName = some time → ¬ Fresh graceInterval now m keyName time) ∧
      (checkTimestamp graceInterval now interestName keyName m = (m, .throws .tlvError) ∨
        ∃ info, checkTimestamp graceInterval now interestName keyName m =
          (m, .returns (.failed interestName info)))) := by
  unfold checkTimestamp
  cases htime : interestTime interestName with
  | none => exact .inr ⟨fun time h => by simp at h, .inl rfl⟩
  | some time =>
    cases hfind : m.find keyName with
    | none | some last => grind [Fresh]

/-- A refused Interest leaves the state. -/
theorem Checked.refused {st : State κ ρ} {info : FailInfo}
    (h : ¬ ∃ keyName time, Accepts R verify graceInterval now interestName st keyName time) :
    Checked R verify graceInterval now interestName st st [.failed interestName info] :=
  ⟨rfl, fun _ _ => Iff.rfl, .inr ⟨h, ⟨info, rfl⟩, rfl⟩⟩

/-- Without a key locator the check fails or throws. -/
theorem locateKey_error {e : Exit} (h : locateKey interestName = .error e) :
    (∃ info, e = .returns (.failed interestName info)) ∨ ∃ thrown, e = .throws thrown := by
  unfold locateKey at h
  split at h
  · cases h
    exact .inr ⟨_, rfl⟩
  · grind

/-- What a check does. -/
theorem checkPolicy_checked (R : Regexes ρ) (verify : Verify κ) (graceInterval now : ℤ)
    (interestName : Name) {st : State κ ρ} (hst : NoneExempted st) :
    Checked R verify graceInterval now interestName st
      (checkPolicy R verify graceInterval now interestName st).1
      (checkPolicy R verify graceInterval now interestName st).2 := by
  unfold checkPolicy
  by_cases hlength : interestName.length < minLength
  · rw [if_pos hlength]
    exact .refused fun ⟨_, _, h⟩ => by
      have := h.1
      omega
  rw [if_neg hlength]
  rcases hkey : locateKey interestName with e | found
  · have hnot : ¬ ∃ keyName time,
        Accepts R verify graceInterval now interestName st keyName time := by
      rintro ⟨keyName, time, -, sig, hok, -⟩
      rw [hkey] at hok
      cases hok
    have htry : tryBlock R verify graceInterval now interestName st = (st, e) := by
      simp only [tryBlock, hkey]
    rw [htry]
    rcases locateKey_error hkey with ⟨info, rfl⟩ | ⟨thrown, rfl⟩
    · exact .refused hnot
    · exact .refused hnot
  obtain ⟨sig, keyName⟩ := found
  -- the key of an accepted Interest is the one that was found
  have hsame : ∀ keyName' time, Accepts R verify graceInterval now interestName st keyName' time →
      keyName' = keyName := by
    rintro keyName' time ⟨-, sig', hok, -⟩
    rw [hkey] at hok
    cases hok
    rfl
  rcases hscope : st.trustScopes.find? fun scope => scope.satisfy R interestName keyName
    with _ | scope
  · have htry : tryBlock R verify graceInterval now interestName st =
        (st, .returns (.failed interestName (.signerNotAuthorized keyName))) := by
      simp only [tryBlock, hkey, hscope]
    rw [htry]
    refine .refused fun ⟨keyName', time, h⟩ => ?_
    obtain rfl := hsame keyName' time h
    obtain ⟨-, -, -, ⟨scope, hmem, hsat⟩, -⟩ := h
    exact absurd hsat (by simpa using find?_eq_none.mp hscope scope hmem)
  have hmem : scope ∈ st.trustScopes := mem_of_find?_eq_some hscope
  have hsat : scope.satisfy R interestName keyName = true :=
    find?_some (p := fun scope : Scope ρ => scope.satisfy R interestName keyName) hscope
  have hsigner : scope.signer.isNone = false := by simpa using hst scope hmem
  by_cases hverify : verifies verify (st.trustAnchors.touch keyName) interestName sig keyName = true
  · have htry : tryBlock R verify graceInterval now interestName st = ({ st with
            trustAnchors := st.trustAnchors.touch keyName
            lastTimestamp := (checkTimestamp graceInterval now interestName keyName
              st.lastTimestamp).1 },
          (checkTimestamp graceInterval now interestName keyName st.lastTimestamp).2) := by
      simp [tryBlock, hkey, hscope, hsigner, hverify]
    rw [htry]
    rcases checkTimestamp_cases graceInterval now interestName keyName st.lastTimestamp with
      ⟨time, htime, hfresh, hcheck⟩ | ⟨hstale, hcheck⟩
    · rw [hcheck]
      refine ⟨rfl, fun k key => find_touch st.trustAnchors keyName k key,
        .inl ⟨keyName, time, ⟨by omega, sig, hkey, ⟨scope, hmem, hsat⟩,
          verifies_touch_iff.mp hverify, htime, hfresh⟩, rfl, rfl⟩⟩
    have hnot : ¬ ∃ keyName' time,
        Accepts R verify graceInterval now interestName st keyName' time := by
      rintro ⟨keyName', time, h⟩
      obtain rfl := hsame keyName' time h
      obtain ⟨-, -, -, -, -, htime, hfresh⟩ := h
      exact hstale time htime hfresh
    rcases hcheck with hcheck | ⟨info, hcheck⟩
    all_goals
      rw [hcheck]
      exact ⟨rfl, fun k key => find_touch st.trustAnchors keyName k key, .inr ⟨hnot, ⟨_, rfl⟩, rfl⟩⟩
  · have htry : tryBlock R verify graceInterval now interestName st =
        ({ st with trustAnchors := st.trustAnchors.touch keyName },
          .returns (.failed interestName (.cannotBeValidated interestName))) := by
      simp [tryBlock, hkey, hscope, hsigner, hverify]
    rw [htry]
    refine ⟨rfl, fun k key => find_touch st.trustAnchors keyName k key, .inr ⟨?_, ⟨_, rfl⟩, rfl⟩⟩
    rintro ⟨keyName', time, h⟩
    obtain ⟨-, sig', hok, -, hkeys, -⟩ := h
    rw [hkey] at hok
    cases hok
    exact hverify (verifies_touch_iff.mpr hkeys)

end

/-! ### The order of timestamps -/

/-- The number of milliseconds in an Interest. -/
def timestamp : Option ℕ :=
  match interestName.reverse[3]? with
  | none => none
  | some c => (Tlv.readNonNegativeInteger c.value).map fun ms => ms.toNat

/-- The time of an Interest whose timestamp fits into the clock. -/
theorem interestTime_eq {interestName : Name} {ms : ℕ} (h : timestamp interestName = some ms)
    (hfits : ms * 10 ^ 6 < 2 ^ 63) : interestTime interestName = some ((ms * 10 ^ 6 : ℕ) : ℤ) := by
  unfold timestamp at h
  unfold interestTime
  cases hc : interestName.reverse[3]? with
  | none => simp [hc] at h
  | some c =>
    simp only [hc] at h ⊢
    obtain ⟨number, hnumber, rfl⟩ := Option.map_eq_some_iff.mp h
    rw [hnumber, Option.map_some, Int.bmod_eq_of_le (by omega) (by omega)]

/-- The milliseconds of an Interest, counted in nanoseconds, are less than the clock's 64 bits with
sign can hold. -/
def FitsClock (interestName : Name) : Prop :=
  ∀ ms, timestamp interestName = some ms → ms * 10 ^ 6 < 2 ^ 63

/-- The time point of one Interest is before that of another. -/
def TimeLt (a b : Name) : Prop :=
  ∃ s t, interestTime a = some s ∧ interestTime b = some t ∧ s < t

/-- The number in one Interest is less than that in another. -/
def TimestampLt (a b : Name) : Prop :=
  ∃ s t, timestamp a = some s ∧ timestamp b = some t ∧ s < t

/-- There is a time point only where there is a number. -/
theorem exists_timestamp {interestName : Name} {t : ℤ} (h : interestTime interestName = some t) :
    ∃ ms, timestamp interestName = some ms := by
  unfold interestTime at h
  unfold timestamp
  cases hc : interestName.reverse[3]? with
  | none => simp [hc] at h
  | some c =>
    simp only [hc] at h ⊢
    obtain ⟨number, hnumber, -⟩ := Option.map_eq_some_iff.mp h
    exact ⟨number.toNat, by rw [hnumber, Option.map_some]⟩

/-- Numbers that fit are ordered as their time points are. -/
theorem timestampLt_of_timeLt {a b : Name} (h : TimeLt a b) (ha : FitsClock a)
    (hb : FitsClock b) : TimestampLt a b := by
  obtain ⟨s, t, hs, ht, hlt⟩ := h
  obtain ⟨x, hx⟩ := exists_timestamp hs
  obtain ⟨y, hy⟩ := exists_timestamp ht
  refine ⟨x, y, hx, hy, ?_⟩
  rw [interestTime_eq hx (ha x hx)] at hs
  rw [interestTime_eq hy (hb y hy)] at ht
  have hxs := Option.some.inj hs
  have hyt := Option.some.inj ht
  omega

/-- What holds in a run: nobody is exempted, accepted timestamps are in order, and the newest one of
each key is noted. -/
structure Ordered (w : World κ ρ) : Prop where
  noneExempted : NoneExempted w.state
  /-- Accepted Interests are not newer than what is noted. -/
  noted : ∀ a ∈ accepted w.log, ∃ keyName time last, keyNameOf a = some keyName ∧
    interestTime a = some time ∧ w.state.lastTimestamp.find keyName = some last ∧ time ≤ last
  /-- They are in order. -/
  increasing : (accepted w.log).Pairwise fun a b => keyNameOf a = keyNameOf b → TimeLt a b

/-- No Interest has been accepted at the beginning. -/
theorem ordered_init : Ordered (World.init : World κ ρ) :=
  ⟨fun _ h => (not_mem_nil h).elim, fun _ h => (not_mem_nil h).elim, Pairwise.nil⟩

/-- The key name of an accepted Interest. -/
theorem keyNameOf_of_accepts {now : ℤ} {n keyName : Name} {st : State κ ρ} {time : ℤ}
    (h : Accepts R verify graceInterval now n st keyName time) : keyNameOf n = some keyName := by
  obtain ⟨-, sig, hkey, -⟩ := h
  simp [keyNameOf, hkey, Except.toOption]

/-- A fresh timestamp is later than the last one. -/
theorem lt_of_fresh {now time last : ℤ} {m : Validator.LastTimestampMap} {keyName : Name}
    (h : Fresh graceInterval now m keyName time) (hlast : m.find keyName = some last) :
    last < time := by
  simpa only [Fresh, hlast] using h

/-- A check keeps the order. -/
theorem Ordered.check {w : World κ ρ} (h : Ordered w) (now : ℤ) (n : Name) :
    Ordered (step R verify graceInterval w (.checkPolicy now n)) := by
  have hchecked := checkPolicy_checked R verify graceInterval now n h.noneExempted
  have hexempted : NoneExempted (checkPolicy R verify graceInterval now n w.state).1 := by
    intro scope hscope
    rw [hchecked.scopes] at hscope
    exact h.noneExempted scope hscope
  rcases hchecked.decision with ⟨keyName, time, haccepts, hcalls, hlast⟩
    | ⟨-, ⟨info, hcalls⟩, hlast⟩
  · have hkey := keyNameOf_of_accepts R verify graceInterval haccepts
    obtain ⟨-, -, -, -, -, htime, hfresh⟩ := haccepts
    have hlog : accepted (step R verify graceInterval w (.checkPolicy now n)).log =
        accepted w.log ++ [n] := by
      simp [step, hcalls, accepted]
    refine ⟨hexempted, fun a ha => ?_, ?_⟩
    · change ∃ keyName time last, _ ∧ _ ∧
        (checkPolicy R verify graceInterval now n w.state).1.lastTimestamp.find keyName =
          some last ∧ _
      rw [hlog] at ha
      rcases mem_append.mp ha with ha | ha
      · obtain ⟨k, s, last, hk, hs, hfind, hle⟩ := h.noted a ha
        by_cases heq : keyName = k
        · subst heq
          have hlt := lt_of_fresh graceInterval hfresh hfind
          grind [Validator.LastTimestampMap.find_assign]
        · refine ⟨k, s, last, hk, hs, ?_, hle⟩
          rw [hlast, Validator.LastTimestampMap.find_assign, if_neg heq, hfind]
      · grind [Validator.LastTimestampMap.find_assign]
    · rw [hlog]
      refine pairwise_append.mpr ⟨h.increasing, pairwise_singleton _ _, ?_⟩
      intro a ha b hb hsame
      obtain rfl := mem_singleton.mp hb
      obtain ⟨k, s, last, hk, hs, hfind, hle⟩ := h.noted a ha
      rw [hk, hkey] at hsame
      obtain rfl := Option.some.inj hsame
      have hlt := lt_of_fresh graceInterval hfresh hfind
      exact ⟨s, time, hs, htime, by omega⟩
  · have hlog : accepted (step R verify graceInterval w (.checkPolicy now n)).log =
        accepted w.log := by
      simp [step, hcalls, accepted]
    refine ⟨hexempted, fun a ha => ?_, hlog ▸ h.increasing⟩
    change ∃ keyName time last, _ ∧ _ ∧
      (checkPolicy R verify graceInterval now n w.state).1.lastTimestamp.find keyName =
        some last ∧ _
    rw [hlast]
    exact h.noted a (hlog ▸ ha)

/-- A rule exempts no one. -/
theorem noneExempted_addInterestRule {st : State κ ρ} (h : NoneExempted st) (regex : Conf.Text)
    (keyName : Name) (key : κ) : NoneExempted (addInterestRule R regex keyName key st) := by
  intro scope hscope
  unfold addInterestRule at hscope
  split at hscope
  · exact h scope hscope
  · rcases mem_append.mp hscope with hscope | hscope
    · exact h scope hscope
    · rw [mem_singleton.mp hscope]
      rfl

/-- A rule leaves the timestamps. -/
theorem lastTimestamp_addInterestRule (regex : Conf.Text) (keyName : Name) (key : κ)
    (st : State κ ρ) :
    (addInterestRule R regex keyName key st).lastTimestamp = st.lastTimestamp := by
  unfold addInterestRule
  split <;> rfl

/-- An event keeps the order. -/
theorem Ordered.step {w : World κ ρ} (h : Ordered w) {e : Event κ} (he : e.NoBypass) :
    Ordered (step R verify graceInterval w e) := by
  cases e with
  | addInterestRule regex keyName key =>
    refine ⟨noneExempted_addInterestRule R h.noneExempted regex keyName key, ?_, h.increasing⟩
    intro a ha
    simp only [CommandInterest.step, lastTimestamp_addInterestRule]
    exact h.noted a ha
  | addInterestBypassRule regex => exact he.elim
  | reset => exact ⟨fun _ hscope => (not_mem_nil hscope).elim, h.noted, h.increasing⟩
  | checkPolicy now n => exact h.check R verify graceInterval now n

/-- In every run Interests are accepted in order. -/
theorem ordered_run {events : List (Event κ)} (hevents : ∀ e ∈ events, e.NoBypass) :
    Ordered (run R verify graceInterval .init events) := by
  induction events using reverseRecOn with
  | nil => exact ordered_init
  | append_singleton es e ih =>
    rw [run_append]
    exact (ih fun x hx => hevents x (mem_append_left _ hx)).step R verify graceInterval
      (hevents e (by simp))

/-- Every Interest is answered once. -/
theorem interests_log {events : List (Event κ)} (hevents : ∀ e ∈ events, e.NoBypass) :
    (run R verify graceInterval .init events).log.map Call.interest = checked events := by
  induction events using reverseRecOn with
  | nil => rfl
  | append_singleton es e ih =>
    have hes : ∀ x ∈ es, x.NoBypass := fun x hx => hevents x (mem_append_left _ hx)
    have hih := ih hes
    have hexempted := (ordered_run R verify graceInterval hes).noneExempted
    rw [run_append]
    cases e with
    | addInterestRule regex keyName key => simpa [step, checked] using hih
    | addInterestBypassRule regex =>
      exact (hevents _ (mem_append_right _ mem_cons_self)).elim
    | reset => simpa [step, checked] using hih
    | checkPolicy now n =>
      have hcall : (checkPolicy R verify graceInterval now n
          (run R verify graceInterval .init es).state).2.map Call.interest = [n] := by
        rcases (checkPolicy_checked R verify graceInterval now n hexempted).decision with
          ⟨-, -, -, hcalls, -⟩ | ⟨-, ⟨info, hcalls⟩, -⟩
        · rw [hcalls]
          rfl
        · rw [hcalls]
          rfl
      have hchecked : checked (es ++ [.checkPolicy now n]) = checked es ++ [n] := by
        simp [checked]
      rw [hchecked, ← hih, ← hcall]
      exact map_append

/-- Only checked Interests are accepted. -/
theorem mem_checked_of_mem_accepted {log : List Call} {a : Name} (h : a ∈ accepted log) :
    a ∈ log.map Call.interest := by
  obtain ⟨call, hcall, heq⟩ := mem_filterMap.mp h
  cases call with
  | validated n =>
    obtain rfl := Option.some.inj heq
    exact mem_map.mpr ⟨_, hcall, rfl⟩
  | failed n info => cases heq

/-- Without rules that allow any signer, the timestamps accepted for one key increase if all of
them fit, no Interest is accepted twice, and every check makes exactly one call. -/
theorem accepted_increasing {events : List (Event κ)} (hevents : ∀ e ∈ events, e.NoBypass) :
    ((∀ n ∈ checked events, FitsClock n) →
        (accepted (run R verify graceInterval .init events).log).Pairwise
          (fun a b => keyNameOf a = keyNameOf b → TimestampLt a b)) ∧
      (accepted (run R verify graceInterval .init events).log).Nodup ∧
      (run R verify graceInterval .init events).log.map Call.interest = checked events := by
  have hordered := (ordered_run R verify graceInterval hevents).increasing
  have hlog := interests_log R verify graceInterval hevents
  refine ⟨fun hfits => ?_, ?_, hlog⟩
  · refine hordered.imp_of_mem fun {a b} ha hb h hsame => ?_
    have hchecked : ∀ n ∈ accepted (run R verify graceInterval .init events).log, FitsClock n :=
      fun n hn => hfits n (hlog ▸ mem_checked_of_mem_accepted hn)
    exact timestampLt_of_timeLt (h hsame) (hchecked a ha) (hchecked b hb)
  · refine hordered.imp fun {a b} h heq => ?_
    subst heq
    obtain ⟨s, t, hs, ht, hlt⟩ := h rfl
    rw [hs] at ht
    have := Option.some.inj ht
    omega

/-- Patterns that match every name. -/
def anyName : Regexes Unit :=
  ⟨fun _ => some (), fun _ _ => true⟩

/-- A signer with a rule sends a command, the same again, and a newer one. -/
def twoCommands : List (Event ℕ) :=
  [.addInterestRule [] [.generic [97]] 1, .checkPolicy 10000000 (Validator.command 97 10),
    .reset, .addInterestRule [] [.generic [97]] 1,
    .checkPolicy 10000001 (Validator.command 97 10),
    .checkPolicy 10000002 (Validator.command 97 11)]

/-- A run with two commands. -/
theorem accepted_increasing_twoCommands :
    accepted (run anyName (fun _ _ key => key == 1) 0 .init twoCommands).log =
        [Validator.command 97 10, Validator.command 97 11] ∧
      (accepted (run anyName (fun _ _ key => key == 1) 0 .init twoCommands).log).Nodup ∧
      (accepted (run anyName (fun _ _ key => key == 1) 0 .init twoCommands).log).Pairwise
        (fun a b => keyNameOf a = keyNameOf b → TimestampLt a b) := by
  have hevents : ∀ e ∈ twoCommands, e.NoBypass := by simp [twoCommands, Event.NoBypass]
  have h := accepted_increasing anyName (fun _ _ key => key == 1) 0 hevents
  refine ⟨by decide +kernel, h.2.1, h.1 fun n hn ms hms => ?_⟩
  have hmem : n = Validator.command 97 10 ∨ n = Validator.command 97 11 := by
    simpa [twoCommands, checked, or_assoc] using hn
  rcases hmem with rfl | rfl
  · obtain rfl : 10 = ms := Option.some.inj hms
    decide
  · obtain rfl : 11 = ms := Option.some.inj hms
    decide

/-- A command of the signer `a` dated `2 ^ 58 + 10` milliseconds, which is 10 milliseconds in the
clock's 64 bits. -/
def wrappedCommand : Name :=
  .generic [4, 0, 0, 0, 0, 0, 0, 10] :: (Validator.command 97 10).tail

/-- The command with the wrapped timestamp and after it one dated 11 milliseconds are accepted for
one key. -/
theorem accepted_of_wrapped_timestamp :
    timestamp wrappedCommand = some (2 ^ 58 + 10) ∧
      timestamp (Validator.command 97 11) = some 11 ∧
      keyNameOf wrappedCommand = keyNameOf (Validator.command 97 11) ∧
      accepted (run anyName (fun _ _ key => key == 1) 0 .init
        [.addInterestRule [] [.generic [97]] 1, .checkPolicy 10000000 wrappedCommand,
          .checkPolicy 10000002 (Validator.command 97 11)]).log =
        [wrappedCommand, Validator.command 97 11] := by
  decide +kernel

end CommandInterest

end IcnDemo
