import IcnDemo.Lib.Runs
import IcnDemo.NameOrder
import IcnDemo.Validator.Config

/-!
# The validator

`ValidatorConfig` decides about a packet by the first rule that matches it.  The checkers of the
rule are asked one after the other.  If one of them wants the signature verified and the key is not
at hand, the certificate is fetched and validated in its turn, and so on up to a number of steps.

The callbacks of the source are kept as data.  A `Job` is a packet under validation: the call of
`validate` that it goes back to, and the certificates fetched on the way, the newest first.  Calls
of the caller's callbacks are written to a log, and so is an exception that leaves the validator,
and the use of an iterator that does not point to an element.  Times are in nanoseconds, and there
is one reading of the clock for each event.
-/

namespace IcnDemo.Validator

open Security Conf

variable {κ ρ : Type}

/-- What the constructor is given. -/
structure Params where
  hasFace : Bool
  cacheGiven : Bool
  graceInterval : ℤ
  stepLimit : ℕ
  maxTrackedKeys : ℕ
  keyTimestampTtl : ℤ
deriving DecidableEq, Repr

/-- There is a certificate cache if one is given, or a Face to make one for. -/
def Params.hasCache (P : Params) : Bool :=
  P.cacheGiven || P.hasFace

/-- `m_graceInterval`; a negative one is replaced by the default. -/
def Params.grace (P : Params) : ℤ :=
  if P.graceInterval < 0 then 3000 * 10 ^ 6 else P.graceInterval

/-- What a validator reads of a Data.  `signed` is its wire form up to the SignatureValue. -/
structure SignedData where
  name : Name
  contentType : ℕ
  content : List UInt8
  signed : List UInt8
  signature : Signature
deriving DecidableEq, Repr

/-- `tlv::ContentType_Key`. -/
def contentTypeKey : ℕ := 2

/-- What is validated. -/
inductive Packet where
  | data (d : SignedData)
  | interest (n : Name)
deriving DecidableEq, Repr

namespace Packet

/-- The name of a packet. -/
def name : Packet → Name
  | data d => d.name
  | interest n => n

/-- The bytes that are signed. -/
def signed : Packet → List UInt8
  | data d => d.signed
  | interest n => signedPortion n

/-- The signature, `none` when decoding it throws. -/
def signature : Packet → Option Signature
  | data d => some d.signature
  | interest n => signatureOf n

/-- The name that filters and checkers look at; an Interest may be too short to have one. -/
def policyName : Packet → Option Name
  | data d => some d.name
  | interest n => if n.length < minLength then none else some (unsignedName n)

/-- `Validator::verifySignature` of a packet and a key. -/
def verify (env : Env κ ρ) (p : Packet) (key : κ) : Bool :=
  match p.signature with
  | none => false
  | some sig => sig.keyLocator.isSome && env.verify p.signed sig key

end Packet

/-- The texts given to `onValidationFailed`. -/
inductive FailInfo where
  | noRuleMatched
  | notSigned
  | noKeyLocator
  | keyLocatorNotName
  | cannotDetermineKey
  | cannotDecodeSignature
  | cannotDecodeTimestamp
  | notInGraceInterval
  | outdated
  | typeMismatch (sigType type : ℕ)
  | missingKeyLocator
  | keyLocatorHasNoName
  | keyLocatorCheckerFailed
  | noSignature
  | unsupportedSignatureType
  | digestNotAllowed
  | signerNotInList (name : Name)
  | cannotBeValidated
  | cannotDecodeTlvs
  | digestNotVerified
  | unsupportedKeyLocatorType
  | cannotVerify
  | maximumSteps
  | requireMoreInformation
  | cannotFetch (name : Name)
  | cannotRetrieve (name : Name)
  | cannotDecodeCertificate (name : Name)
  | cannotVerifyPacket (name : Name)
  | certificateNotValid (name : Name)
deriving DecidableEq, Repr

/-- What may end an event instead of a callback: an exception, or the use of an iterator that does
not point to an element. -/
inductive Exn where
  | tlvError
  | regexError
  | filesystemError
  | certificateError
  | anchorAbsent
  | timestampAbsent
deriving DecidableEq, Repr

/-! ### Rules -/

/-- Whether a filter matches a packet. -/
def Filter.matchPacket (env : Env κ ρ) (f : Conf.Filter ρ) (p : Packet) : Bool :=
  match p.policyName with
  | none => false
  | some n =>
    match f with
    | .relation name .equal => n.equals name
    | .relation name .isPrefixOf => name.isPrefixOf n
    | .relation name .isStrictPrefixOf => name.isPrefixOf n && decide (name.length < n.length)
    | .regex r => env.matchName r n

/-- `KeyLocatorChecker::checkRelation`. -/
def checkRelation (r : Relation) (name₁ name₂ : Name) : Bool :=
  match r with
  | .equal => name₁.equals name₂
  | .isPrefixOf => name₁.isPrefixOf name₂
  | .isStrictPrefixOf => name₁.isPrefixOf name₂ && !name₁.equals name₂

/-- `KeyLocatorChecker::check`: what is wrong with a key locator, if anything is. -/
def KeyLocatorChecker.check (env : Env κ ρ) (c : KeyLocatorChecker ρ) (p : Packet)
    (locator : Locator) : Except Exn (Option FailInfo) :=
  match p.policyName with
  | none => .ok (some .noSignature)
  | some packetName =>
    match c with
    | .relation name r =>
      match locator.getName with
      | none => .ok (some .keyLocatorHasNoName)
      | some n => .ok (if checkRelation r name n then none else some .keyLocatorCheckerFailed)
    | .regex r =>
      match locator.getName with
      | none => .ok (some .keyLocatorHasNoName)
      | some n => .ok (if env.matchName r n then none else some .keyLocatorCheckerFailed)
    | .hyper pRegex kRegex r =>
      if env.matchName pRegex packetName then
        match locator.getName with
        | none => .ok (some .keyLocatorHasNoName)
        | some n =>
          if env.matchName kRegex n then
            match env.expand kRegex n, env.expand pRegex packetName with
            | some k, some p =>
              .ok (if checkRelation r k p then none else some .keyLocatorCheckerFailed)
            | _, _ => .error .regexError
          else .ok (some .keyLocatorCheckerFailed)
      else .ok (some .keyLocatorCheckerFailed)

/-- What a checker returns: -1, 0 or 1.  It may also throw. -/
inductive Verdict where
  | invalid
  | further
  | valid
  | throws (e : Exn)
deriving DecidableEq, Repr

/-- The calls of `onValidationFailed` that a checker makes, and its verdict.  With the verdict
`valid` it calls `onValidated`, after all of them. -/
structure CheckResult where
  failures : List FailInfo
  verdict : Verdict
deriving DecidableEq, Repr

/-- A signature type for which a key is needed. -/
def IsPublicKeyType (type : ℕ) : Prop :=
  type = signatureSha256WithRsa ∨ type = signatureSha256WithEcdsa

instance (type : ℕ) : Decidable (IsPublicKeyType type) :=
  inferInstanceAs (Decidable (_ ∨ _))

/-- `CustomizedChecker::check` of a packet and its signature.  When the key locator is missing it
goes on after its complaint, and asking for the key locator throws. -/
def customizedCheck (env : Env κ ρ) (sigType : ℕ) (c : KeyLocatorChecker ρ) (p : Packet)
    (sig : Signature) : CheckResult :=
  if sigType ≠ sig.type then ⟨[.typeMismatch sigType sig.type], .invalid⟩
  else if sig.type = digestSha256 then ⟨[], .further⟩
  else if IsPublicKeyType sig.type then
    match sig.keyLocator with
    | none => ⟨[.missingKeyLocator], .throws .tlvError⟩
    | some locator =>
      match KeyLocatorChecker.check env c p locator with
      | .ok none => ⟨[], .further⟩
      | .ok (some f) => ⟨[f], .invalid⟩
      | .error e => ⟨[], .throws e⟩
  else ⟨[.unsupportedSignatureType], .invalid⟩

/-- `FixedSignerChecker::check` of a packet and its signature.  Here the exception of a missing key
locator is caught, and reported a second time. -/
def fixedSignerCheck (env : Env κ ρ) (sigType : ℕ) (signers : List (Cert κ)) (p : Packet)
    (sig : Signature) : CheckResult :=
  if sigType ≠ sig.type then ⟨[.typeMismatch sigType sig.type], .invalid⟩
  else if sig.type = digestSha256 then ⟨[.digestNotAllowed], .invalid⟩
  else if IsPublicKeyType sig.type then
    match sig.keyLocator with
    | none => ⟨[.missingKeyLocator, .cannotDecodeSignature], .invalid⟩
    | some locator =>
      match locator.getName with
      | none => ⟨[.keyLocatorHasNoName], .invalid⟩
      | some n =>
        match Cert.find signers n with
        | none => ⟨[.signerNotInList n], .invalid⟩
        | some signer =>
          if env.verify p.signed sig signer.key then ⟨[], .valid⟩
          else ⟨[.cannotBeValidated], .invalid⟩
  else ⟨[.unsupportedSignatureType], .invalid⟩

/-- The `check` of a packet and its signature that a checker has. -/
def checkWith (env : Env κ ρ) (c : Checker κ ρ) (p : Packet) (sig : Signature) : CheckResult :=
  match c with
  | .customized sigType keyLocatorChecker => customizedCheck env sigType keyLocatorChecker p sig
  | .fixedSigner sigType signers => fixedSignerCheck env sigType signers p sig

/-- `Checker::check`.  For an Interest the signature is decoded, and errors in TLVs are caught. -/
def Checker.check (env : Env κ ρ) (c : Checker κ ρ) (p : Packet) : CheckResult :=
  match p with
  | .data d => checkWith env c p d.signature
  | .interest n =>
    match signatureOf n with
    | none => ⟨[.cannotDecodeTlvs], .invalid⟩
    | some sig =>
      let r := checkWith env c p sig
      if r.verdict = .throws .tlvError then ⟨r.failures ++ [.cannotDecodeTlvs], .invalid⟩ else r

/-- `Rule::match`. -/
def Rule.matchPacket (env : Env κ ρ) (r : Rule κ ρ) (p : Packet) : Bool :=
  r.filters.all fun f => Filter.matchPacket env f p

/-- The loop of `Rule::check`: on to the next checker as long as they say -1. -/
def checkAll (env : Env κ ρ) (p : Packet) : List (Checker κ ρ) → CheckResult
  | [] => ⟨[], .invalid⟩
  | c :: cs =>
    let r := Checker.check env c p
    if r.verdict = .invalid then
      let rest := checkAll env p cs
      ⟨r.failures ++ rest.failures, rest.verdict⟩
    else r

/-! ### Timestamps -/

/-- `LastTimestampMap`, in the order of its keys. -/
abbrev LastTimestampMap := List (Name × ℤ)

namespace LastTimestampMap

/-- The timestamp of a key. -/
def find (m : LastTimestampMap) (key : Name) : Option ℤ :=
  (List.find? (fun e : Name × ℤ => e.1 == key) m).map Prod.snd

/-- Assignment to `map[key]`. -/
def assign (key : Name) (time : ℤ) : LastTimestampMap → LastTimestampMap
  | [] => [(key, time)]
  | e :: m =>
    match key.compare e.1 with
    | .lt => (key, time) :: e :: m
    | .eq => (key, time) :: m
    | .gt => e :: assign key time m

end LastTimestampMap

/-- An entry is older than the time for which keys are tracked. -/
def Expired (P : Params) (now : ℤ) (e : Name × ℤ) : Prop :=
  P.keyTimestampTtl < now - e.2

instance (P : Params) (now : ℤ) (e : Name × ℤ) : Decidable (Expired P now e) :=
  inferInstanceAs (Decidable (_ < _))

/-- The loop of `cleanOldKeys`, as far as it looks for the oldest entry. -/
def oldestKey (P : Params) (now : ℤ) (oldest : Name × ℤ) : LastTimestampMap → Name × ℤ
  | [] => oldest
  | e :: m =>
    if Expired P now e then oldestKey P now oldest m
    else if e.2 < oldest.2 then oldestKey P now e m
    else oldestKey P now oldest m

/-- `ValidatorConfig::cleanOldKeys`, `none` when it uses an iterator without an element: that to the
beginning of an empty map, or that to an entry it has erased. -/
def cleanOldKeys (P : Params) (now : ℤ) (m : LastTimestampMap) : Option LastTimestampMap :=
  if m.length < P.maxTrackedKeys then some m
  else
    match m with
    | [] => none
    | first :: _ =>
      let kept := m.filter fun e => ¬ Expired P now e
      if kept.length < P.maxTrackedKeys then some kept
      else
        let oldest := oldestKey P now first m
        if oldest ∈ kept then some (kept.erase oldest) else none

/-- What `checkTimestamp` does before it calls back. -/
inductive Stamp where
  | rejected (f : FailInfo)
  | accepted (m : LastTimestampMap)
  | undefined
deriving DecidableEq, Repr

/-- `ValidatorConfig::checkTimestamp` up to its callback. -/
def checkTimestamp (P : Params) (now : ℤ) (interest keyName : Name) (m : LastTimestampMap) :
    Stamp :=
  match interestTime interest with
  | none => .rejected .cannotDecodeTimestamp
  | some time =>
    match m.find keyName with
    | none =>
      if now - P.grace ≤ time ∧ time ≤ now + P.grace then
        match cleanOldKeys P now m with
        | none => .undefined
        | some m => .accepted (m.assign keyName time)
      else .rejected .notInGraceInterval
    | some last =>
      if time ≤ last then .rejected .outdated else .accepted (m.assign keyName time)

/-! ### State -/

/-- `DynamicTrustAnchorContainer`. -/
structure DynamicContainer (κ : Type) where
  path : Text
  certificates : List (Cert κ)
  lastRefresh : ℤ
  refreshPeriod : ℤ

/-- A call of `Validator::validate`.  The callback of a signed Interest is bound to the name of its
key as soon as that is known. -/
structure Caller where
  id : ℕ
  packet : Packet
  keyName : Option Name
deriving DecidableEq, Repr

/-- A packet under validation: that of the caller, or the first of the certificates, which the next
one waits for. -/
structure Job where
  caller : Caller
  chain : List SignedData
deriving DecidableEq, Repr

/-- The packet that comes before the first certificate of a chain. -/
def Caller.current (caller : Caller) : List SignedData → Packet
  | [] => caller.packet
  | d :: _ => .data d

/-- The packet that is validated now. -/
def Job.packet (j : Job) : Packet :=
  j.caller.current j.chain

/-- `ValidationRequest`: the Interest for a certificate is on its way. -/
structure Request where
  job : Job
  interest : Name
  nRetries : ℕ
  nSteps : ℕ
deriving DecidableEq, Repr

/-- How an event ends for a call of `validate`. -/
inductive Call where
  | validated
  | failed (f : FailInfo)
  | thrown (e : Exn)
deriving DecidableEq, Repr

/-- A callback that was called. -/
structure Entry where
  id : ℕ
  packet : Packet
  call : Call
deriving DecidableEq, Repr

/-- The members of `ValidatorConfig` that a configuration sets.  Maps from names to certificates are
lists of assignments. -/
structure Policy (κ ρ : Type) where
  shouldValidate : Bool
  interestRules : List (Rule κ ρ)
  dataRules : List (Rule κ ρ)
  anchors : List (Cert κ)
  staticContainer : List (Cert κ)
  dynamicContainers : List (DynamicContainer κ)

/-- The members of `ValidatorConfig` that change, the Interests for certificates that are on their
way, and the log. -/
structure State (κ ρ : Type) where
  policy : Policy κ ρ
  cache : List (Cert κ)
  postedResets : ℕ
  lastTimestamp : LastTimestampMap
  pending : List Request
  log : List Entry

/-- No rules and no anchors. -/
def Policy.empty (shouldValidate : Bool) : Policy κ ρ where
  shouldValidate := shouldValidate
  interestRules := []
  dataRules := []
  anchors := []
  staticContainer := []
  dynamicContainers := []

/-- A new validator. -/
def State.init : State κ ρ where
  policy := .empty true
  cache := []
  postedResets := 0
  lastTimestamp := []
  pending := []
  log := []

/-! ### Callbacks -/

variable (st : State κ ρ) (env : Env κ ρ) (p : Packet) (sig : Signature) (P : Params) (now : ℤ)
  (j : Job) (filename : Text) (caller : Caller)

/-- A callback is called. -/
def State.call (c : Call) : State κ ρ :=
  { st with log := st.log ++ [⟨caller.id, caller.packet, c⟩] }

/-- The caller's `onValidationFailed`, for each of the texts. -/
def State.failAll (fs : List FailInfo) : State κ ρ :=
  fs.foldl (fun st f => st.call caller (.failed f)) st

/-- The caller's `onValidated`, behind `checkTimestamp` for a signed Interest. -/
def State.onValidated (st : State κ ρ) (caller : Caller) : State κ ρ :=
  match caller.keyName with
  | none => st.call caller .validated
  | some keyName =>
    match checkTimestamp P now caller.packet.name keyName st.lastTimestamp with
    | .rejected f => st.call caller (.failed f)
    | .undefined => st.call caller (.thrown .timestampAbsent)
    | .accepted m => { st with lastTimestamp := m }.call caller .validated

/-- The certificate in a validated Data, or what keeps it from being one now. -/
def certificateOf (d : SignedData) : Except Call (Cert κ) :=
  if d.contentType ≠ contentTypeKey then .error (.failed (.cannotRetrieve d.name))
  else
    match env.decodeCertificate d.content with
    | .tlvError => .error (.failed (.cannotDecodeCertificate d.name))
    | .otherException => .error (.thrown .certificateError)
    | .ok key notBefore notAfter =>
      if isCorrectName d.name = false ∨ certificateNameToPublicKeyName d.name = none then
        .error (.failed (.cannotDecodeCertificate d.name))
      else if now ≤ notAfter ∧ notBefore ≤ now then .ok ⟨d.name, key⟩
      else .error (.failed (.certificateNotValid d.name))

/-- `CertificateCacheTtl::insert`. -/
def insertCertificate (c : Cert κ) (cache : List (Cert κ)) : List (Cert κ) :=
  if P.hasCache then cache.filter (fun d => d.index ≠ c.index) ++ [c] else cache

/-- `onValidated` of the packet under validation.  A certificate goes to `onCertValidated` of the
packet before it. -/
def State.succeed (env : Env κ ρ) (P : Params) (now : ℤ) (caller : Caller) :
    List SignedData → State κ ρ → State κ ρ
  | [], st => st.onValidated P now caller
  | d :: chain, st =>
    match certificateOf env now d with
    | .error c => st.call caller c
    | .ok cert =>
      let st := { st with cache := insertCertificate P cert st.cache }
      let packet := caller.current chain
      if packet.verify env cert.key then succeed env P now caller chain st
      else st.call caller (.failed (.cannotVerifyPacket packet.name))

/-! ### Signatures -/

/-- The loop of `refreshAnchors`: the containers, whether one was refreshed, and whether reading a
directory threw. -/
def refreshContainers (env : Env κ ρ) (now : ℤ) :
    List (DynamicContainer κ) → List (DynamicContainer κ) × Bool × Bool
  | [] => ([], false, false)
  | c :: cs =>
    if wrap64 (c.lastRefresh + c.refreshPeriod) < now then
      let listing := env.directory now c.path
      if listing.throws then ({ c with certificates := listing.certs } :: cs, true, true)
      else
        let rest := refreshContainers env now cs
        ({ c with certificates := listing.certs, lastRefresh := now } :: rest.1, true, rest.2.2)
    else (c :: cs, false, false)

/-- `ValidatorConfig::refreshAnchors`, and whether it throws. -/
def refreshAnchors (p : Policy κ ρ) : Policy κ ρ × Bool :=
  let r := refreshContainers env now p.dynamicContainers
  if r.2.2 then ({ p with dynamicContainers := r.1 }, true)
  else if r.2.1 then
    ({ p with
        anchors := p.staticContainer ++ r.1.flatMap DynamicContainer.certificates
        dynamicContainers := r.1.insertionSort fun a b => a.lastRefresh ≤ b.lastRefresh }, false)
  else (p, false)

/-- The certificate for a key locator: among the anchors, or in the cache.  Without a cache the
iterator is used whether or not it points to an anchor. -/
def trustedCert (st : State κ ρ) (n : Name) : Except Exn (Option (Cert κ)) :=
  match Cert.find st.policy.anchors n with
  | some c => .ok (some c)
  | none => if P.hasCache then .ok (Cert.find st.cache n) else .error .anchorAbsent

/-- The end of `checkSignature` and `afterCheckPolicy`, when the certificate has to be fetched. -/
def State.fetch (st : State κ ρ) (j : Job) (n : Name) (nSteps : ℕ) : State κ ρ :=
  if P.stepLimit = nSteps then st.call j.caller (.failed .maximumSteps)
  else if P.hasFace then { st with pending := st.pending ++ [⟨j, n, 1, nSteps + 1⟩] }
  else st.call j.caller (.failed .requireMoreInformation)

/-- The part of `checkSignature` for a signature made with the key of name `n`. -/
def checkKeySignature (sig : Signature) (n : Name) (nSteps : ℕ) (st : State κ ρ) : State κ ρ :=
  let r := refreshAnchors env now st.policy
  let st := { st with policy := r.1 }
  if r.2 then st.call j.caller (.thrown .filesystemError)
  else
    match trustedCert P st n with
    | .error e => st.call j.caller (.thrown e)
    | .ok none => st.fetch P j n nSteps
    | .ok (some cert) =>
      if env.verify j.packet.signed sig cert.key then st.succeed env P now j.caller j.chain
      else st.call j.caller (.failed .cannotVerify)

/-- `Validator::verifySignature` of a digest. -/
def digestVerified : Prop :=
  env.sha256 p.signed = sig.value.value ∧ sig.value.value.length = 32

instance : Decidable (digestVerified env p sig) :=
  inferInstanceAs (Decidable (_ ∧ _))

/-- `ValidatorConfig::checkSignature`. -/
def checkSignature (sig : Signature) (nSteps : ℕ) (st : State κ ρ) : State κ ρ :=
  if sig.type = digestSha256 then
    if digestVerified env j.packet sig then st.succeed env P now j.caller j.chain
    else st.call j.caller (.failed .digestNotVerified)
  else if IsPublicKeyType sig.type then
    match sig.keyLocator with
    | none => st.call j.caller (.failed .missingKeyLocator)
    | some locator =>
      match locator.getName with
      | none => st.call j.caller (.failed .unsupportedKeyLocatorType)
      | some n => checkKeySignature env P now j sig n nSteps st
  else st.call j.caller (.failed .unsupportedSignatureType)

/-- The rules, and what follows from the verdict of the first one that matches. -/
def checkRules (rules : List (Rule κ ρ)) (j : Job)
    (sig : Signature) (nSteps : ℕ) (st : State κ ρ) : State κ ρ :=
  match rules.find? fun r => Rule.matchPacket env r j.packet with
  | none => st.call j.caller (.failed .noRuleMatched)
  | some rule =>
    let r := checkAll env j.packet rule.checkers
    let st := st.failAll j.caller r.failures
    match r.verdict with
    | .invalid => st
    | .valid => st.succeed env P now j.caller j.chain
    | .further => checkSignature env P now j sig nSteps st
    | .throws e => st.call j.caller (.thrown e)

/-- The name of the key that an Interest is signed with, and its signature, or why there is none. -/
def signingKey (n : Name) : Except FailInfo (Signature × Name) :=
  if n.length < minLength then .error .notSigned
  else
    match signatureOf n with
    | none => .error .cannotDecodeSignature
    | some sig =>
      match sig.keyLocator with
      | none => .error .noKeyLocator
      | some locator =>
        match locator.getName with
        | none => .error .keyLocatorNotName
        | some certificateName =>
          match certificateNameToPublicKeyName certificateName with
          | none => .error .cannotDetermineKey
          | some keyName => .ok (sig, keyName)

/-- `ValidatorConfig::checkPolicy` and what `Validator::validate` does after it. -/
def checkPolicy (nSteps : ℕ) (st : State κ ρ) : State κ ρ :=
  if st.policy.shouldValidate = false then st.succeed env P now j.caller j.chain
  else
    match j.packet with
    | .data d => checkRules env P now st.policy.dataRules j d.signature nSteps st
    | .interest n =>
      match signingKey n with
      | .error f => st.call j.caller (.failed f)
      | .ok (sig, keyName) =>
        let j : Job := { j with caller := { j.caller with keyName := some keyName } }
        checkRules env P now st.policy.interestRules j sig nSteps st

/-! ### Loading a configuration -/

/-- `ValidatorConfig::reset`.  Outside the event loop, the cache is cleared later. -/
def reset (inRun : Bool) (st : State κ ρ) : State κ ρ :=
  { st with
    cache := if P.hasCache && inRun then [] else st.cache
    postedResets := if P.hasCache && !inRun then st.postedResets + 1 else st.postedResets
    policy := .empty st.policy.shouldValidate }

/-- A rule for Data or for Interests. -/
def addRule (isForData : Bool) (r : Rule κ ρ) (p : Policy κ ρ) : Policy κ ρ :=
  if isForData then { p with dataRules := p.dataRules ++ [r] }
  else { p with interestRules := p.interestRules ++ [r] }

/-- The anchor in a file or in a string. -/
def addAnchor (c : Cert κ) (p : Policy κ ρ) : Policy κ ρ :=
  { p with staticContainer := p.staticContainer ++ [c], anchors := p.anchors ++ [c] }

/-- The part of `onConfigTrustAnchor` for a directory.  Without a refresh period, its certificates
go to the static container only. -/
def onConfigDir (rest : Properties) (p : Policy κ ρ) : Policy κ ρ × Option Error :=
  match expect .dir (.expect [.trustAnchor, .dir]) rest with
  | .error e => (p, some e)
  | .ok (dir, []) =>
    let path := env.absolute filename dir.data
    let listing := env.directory now path
    ({ p with staticContainer := p.staticContainer ++ listing.certs },
      if listing.throws then some (.directoryThrows path) else none)
  | .ok (dir, (key, value) :: rest) =>
    if Keyword.refresh.is key then
      match getRefreshPeriod env value.data, expectEnd [.trustAnchor] rest with
      | .error e, _ | .ok _, .error e => (p, some e)
      | .ok refresh, .ok _ =>
        let c : DynamicContainer κ :=
          ⟨env.absolute filename dir.data, [], wrap64 (now - refresh), refresh⟩
        ({ p with dynamicContainers := p.dynamicContainers ++ [c] }, none)
    else (p, some (.expect [.trustAnchor, .refresh]))

/-- `ValidatorConfig::onConfigTrustAnchor`, and the error it throws. -/
def onConfigTrustAnchor (s : ConfigSection) (p : Policy κ ρ) : Policy κ ρ × Option Error :=
  match expect .type (.expect [.trustAnchor, .type]) s.children with
  | .error e => (p, some e)
  | .ok (type, rest) =>
    if Keyword.file.is type.data then
      match readCert env now filename [.trustAnchor] true rest with
      | .error e => (p, some e)
      | .ok c => (addAnchor c p, none)
    else if Keyword.base64.is type.data then
      match readCert env now filename [.trustAnchor] false rest with
      | .error e => (p, some e)
      | .ok c => (addAnchor c p, none)
    else if Keyword.dir.is type.data then onConfigDir env now filename rest p
    else if Keyword.any.is type.data then ({ p with shouldValidate := false }, none)
    else (p, some (.unsupported [.trustAnchor, .type] type.data))

/-- `ValidatorConfig::onConfigRule`. -/
def onConfigRule (s : ConfigSection) (p : Policy κ ρ) : Policy κ ρ × Option Error :=
  match readRule env now filename s with
  | .error e => (p, some e)
  | .ok (isForData, r) => (addRule isForData r p, none)

/-- One section in the loop of `ValidatorConfig::load`. -/
def onConfigSection (c : Text × ConfigSection) (p : Policy κ ρ) : Policy κ ρ × Option Error :=
  if Keyword.rule.is c.1 then onConfigRule env now filename c.2 p
  else if Keyword.trustAnchor.is c.1 then onConfigTrustAnchor env now filename c.2 p
  else (p, some (.unrecognizedSection filename c.1))

/-- The loop of `ValidatorConfig::load`. -/
def loadSections (env : Env κ ρ) (now : ℤ) (filename : Text) :
    Properties → Policy κ ρ → Policy κ ρ × Option Error
  | [], p => (p, none)
  | c :: rest, p =>
    let r := onConfigSection env now filename c p
    match r.2 with
    | some e => (r.1, some e)
    | none => loadSections env now filename rest r.1

/-- `ValidatorConfig::load`: the state that it leaves, and the error it throws. -/
def load (s : ConfigSection) (filename : Text)
    (inRun : Bool) (st : State κ ρ) : State κ ρ × Option Error :=
  let st := reset P inRun st
  if s.children.isEmpty then (st, some (.noData filename))
  else
    let r := loadSections env now filename s.children st.policy
    ({ st with policy := r.1 }, r.2)

/-! ### Events -/

/-- What can happen to a validator: a call, an answer to a request or its timeout, and the two kinds
of handlers of the cache. -/
inductive Event where
  | validate (id : ℕ) (p : Packet)
  | answer (id : ℕ) (d : SignedData)
  | timeout (id : ℕ)
  | load (s : ConfigSection) (filename : Text) (inRun : Bool)
  | reset (inRun : Bool)
  | poll
  | expire (n : Name)

/-- The request of a call of `validate`. -/
def State.requestOf (id : ℕ) : Option Request :=
  st.pending.find? fun r => r.job.caller.id == id

/-- The request of a call is over. -/
def State.dropRequest (id : ℕ) : State κ ρ :=
  { st with pending := st.pending.eraseP fun r => r.job.caller.id == id }

/-- `Validator::onData`. -/
def onData (r : Request) (d : SignedData) (st : State κ ρ) : State κ ρ :=
  checkPolicy env P now { r.job with chain := d :: r.job.chain } r.nSteps st

/-- `Validator::onTimeout`. -/
def onTimeout (r : Request) (st : State κ ρ) : State κ ρ :=
  if 0 < r.nRetries then
    { st with pending := st.pending ++ [{ r with nRetries := r.nRetries - 1 }] }
  else st.call r.job.caller (.failed (.cannotFetch r.interest))

/-- One event, at one reading of the clock. -/
def step (st : State κ ρ) (e : ℤ × Event) : State κ ρ :=
  match e.2 with
  | .validate id p => checkPolicy env P e.1 ⟨⟨id, p, none⟩, []⟩ 0 st
  | .answer id d =>
    match st.requestOf id with
    | none => st
    | some r => onData env P e.1 r d (st.dropRequest id)
  | .timeout id =>
    match st.requestOf id with
    | none => st
    | some r => onTimeout r (st.dropRequest id)
  | .load s filename inRun => (load env P e.1 s filename inRun st).1
  | .reset inRun => reset P inRun st
  | .poll =>
    if 0 < st.postedResets then { st with cache := [], postedResets := st.postedResets - 1 } else st
  | .expire n => { st with cache := st.cache.filter fun c => c.index ≠ n }

/-- A sequence of events. -/
def run (st : State κ ρ) (es : List (ℤ × Event)) : State κ ρ :=
  es.foldl (step env P) st

end IcnDemo.Validator
