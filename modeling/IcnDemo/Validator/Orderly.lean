import IcnDemo.Validator.Effects
import IcnDemo.Validator.Timestamps

/-!
# What comes of one packet

When a packet is validated, the caller is called back some number of times, an exception may leave
the validator, and a certificate may be requested.  These are the outcomes; there should be exactly
one, and it should not be an exception.

Whether that is so can be told from the state and the packet.  The first checker of the rule has to
come to a decision, that is, it has what it needs to say yes or no.  If it says no, there must be no
other checker, because each of them reports its own failure.  If it says yes, the signature is
looked at, and the ways on which an exception can leave are listed below.
-/

namespace IcnDemo.Validator

open List Security Conf

variable {κ ρ : Type} {env : Env κ ρ} {P : Params} {now : ℤ}

/-! ### Outcomes -/

/-- A callback or a request. -/
inductive Outcome where
  | call (c : Call)
  | request (r : Request)
deriving DecidableEq, Repr

/-- Whether an exception leaves the validator. -/
def Call.isThrown : Call → Bool
  | thrown _ => true
  | _ => false

namespace Outcome

/-- Whether an outcome is an exception. -/
def isThrown : Outcome → Bool
  | call c => c.isThrown
  | request _ => false

/-- The callback of an outcome, as logged. -/
def asEntry (caller : Caller) : Outcome → Option Entry
  | call c => some ⟨caller.id, caller.packet, c⟩
  | request _ => none

/-- The request of an outcome. -/
def request? : Outcome → Option Request
  | call _ => none
  | request r => some r

variable (caller : Caller) (c : Call) (r : Request) (os : List Outcome)

@[simp] theorem filterMap_asEntry_call : (call c :: os).filterMap (asEntry caller) =
    ⟨caller.id, caller.packet, c⟩ :: os.filterMap (asEntry caller) := rfl

@[simp] theorem filterMap_asEntry_request : (request r :: os).filterMap (asEntry caller) =
    os.filterMap (asEntry caller) := rfl

@[simp] theorem filterMap_request?_call : (call c :: os).filterMap request? =
    os.filterMap request? := rfl

@[simp] theorem filterMap_request?_request : (request r :: os).filterMap request? =
    r :: os.filterMap request? := rfl

end Outcome

open Outcome

/-- The outcomes of a packet are added to the log and to the pending requests. -/
structure Emits (P : Params) (caller : Caller) (nSteps : ℕ) (st st' : State κ ρ)
    (os : List Outcome) : Prop where
  log : st'.log = st.log ++ os.filterMap (asEntry caller)
  pending : st'.pending = st.pending ++ os.filterMap request?
  /-- A new request is for the next step, which is allowed, and may be repeated once. -/
  requests : ∀ r, request r ∈ os → r.job.caller.id = caller.id ∧ r.nRetries = 1 ∧
    r.nSteps = nSteps + 1 ∧ P.stepLimit ≠ nSteps

/-- There is one outcome, and it is not an exception. -/
def Single (os : List Outcome) : Prop :=
  ∃ o, os = [o] ∧ o.isThrown = false

/-- One outcome that is no exception. -/
@[simp] theorem single_singleton (o : Outcome) : Single [o] ↔ o.isThrown = false := by
  simp [Single]

theorem Single.length_eq_one {os : List Outcome} (h : Single os) : os.length = 1 := by
  obtain ⟨o, rfl, -⟩ := h
  rfl

namespace Emits

variable {caller : Caller} {nSteps : ℕ} {st st' st'' : State κ ρ} {os os' : List Outcome}

theorem call (P : Params) (nSteps : ℕ) (st : State κ ρ) (caller : Caller) (c : Call) :
    Emits P caller nSteps st (st.call caller c) [.call c] where
  log := rfl
  pending := (append_nil _).symm
  requests r hr := by simp at hr

theorem trans (h : Emits P caller nSteps st st' os) (h' : Emits P caller nSteps st' st'' os') :
    Emits P caller nSteps st st'' (os ++ os') where
  log := by rw [h'.log, h.log, filterMap_append, append_assoc]
  pending := by rw [h'.pending, h.pending, filterMap_append, append_assoc]
  requests r hr := (mem_append.mp hr).elim (h.requests r) (h'.requests r)

theorem failAll (P : Params) (nSteps : ℕ) (st : State κ ρ) (caller : Caller)
    (fs : List FailInfo) : Emits P caller nSteps st (st.failAll caller fs)
      (fs.map fun f => .call (.failed f)) := by
  induction fs generalizing st with
  | nil => exact ⟨(append_nil _).symm, (append_nil _).symm, fun _ h => by simp at h⟩
  | cons f fs ih => exact (call P nSteps st caller (.failed f)).trans (ih _)

/-- The bound key does not matter. -/
theorem of_bound {keyName : Option Name}
    (h : Emits P { caller with keyName := keyName } nSteps st st' os) :
    Emits P caller nSteps st st' os :=
  ⟨h.log, h.pending, h.requests⟩

end Emits

/-! ### After the signature is verified -/

/-- If the Interest is of a new key and within the grace interval, its key can be tracked. -/
def TimestampOk (P : Params) (now : ℤ) (caller : Caller) (m : LastTimestampMap) : Prop :=
  ∀ key time, caller.keyName = some key → interestTime caller.packet.name = some time →
    m.find key = none → now - P.grace ≤ time → time ≤ now + P.grace → P.maxTrackedKeys ≠ 0

/-- If the Data is a certificate, reading it throws nothing but a `tlv::Error`. -/
def CertificateOk (env : Env κ ρ) (d : SignedData) : Prop :=
  d.contentType = contentTypeKey → env.decodeCertificate d.content ≠ .otherException

/-- The certificates that the packets before them are verified with can be read, and at the end the
timestamp can be checked. -/
def SucceedOk (env : Env κ ρ) (P : Params) (now : ℤ) (caller : Caller) (m : LastTimestampMap) :
    List SignedData → Prop
  | [] => TimestampOk P now caller m
  | d :: chain => CertificateOk env d ∧ ∀ cert, certificateOf env now d = .ok cert →
      (caller.current chain).verify env cert.key = true → SucceedOk env P now caller m chain

variable {st : State κ ρ}

/-- A validated packet has one outcome. -/
theorem onValidated_emits (now : ℤ) (hm : TableOk P st.lastTimestamp)
    (caller : Caller)
    (nSteps : ℕ) : ∃ c, Emits P caller nSteps st (st.onValidated P now caller) [.call c] ∧
      (c.isThrown = false ↔ TimestampOk P now caller st.lastTimestamp) := by
  unfold State.onValidated TimestampOk
  rcases hkey : caller.keyName with _ | keyName
  · exact ⟨.validated, .call P nSteps st caller _, by simp [Call.isThrown]⟩
  have hundefined := undefined_iff now hm caller.packet.name keyName
  dsimp only
  cases hstamp : checkTimestamp P now caller.packet.name keyName st.lastTimestamp with
  | rejected f =>
    refine ⟨.failed f, .call P nSteps st caller _, ?_⟩
    grind [Call.isThrown]
  | accepted m =>
    refine ⟨.validated, ⟨rfl, (append_nil _).symm, fun r hr => by simp at hr⟩, ?_⟩
    grind [Call.isThrown]
  | undefined =>
    refine ⟨.thrown .timestampAbsent, .call P nSteps st caller _, ?_⟩
    grind [Call.isThrown]

/-- When a certificate throws. -/
theorem certificateOf_error_isThrown {d : SignedData} {c : Call}
    (h : certificateOf env now d = .error c) : c.isThrown = false ↔ CertificateOk env d := by
  unfold certificateOf at h
  unfold CertificateOk
  split at h
  · rename_i htype
    cases h
    simp [Call.isThrown, htype]
  rename_i htype
  split at h
  · rename_i hdecode
    cases h
    simp [Call.isThrown, hdecode]
  · rename_i hdecode
    cases h
    simp [Call.isThrown, htype, hdecode]
  · grind [Call.isThrown]

/-- A certificate that was read is in order. -/
theorem certificateOk_of_ok {d : SignedData} {cert : Cert κ}
    (h : certificateOf env now d = .ok cert) : CertificateOk env d := by
  intro _ hdecode
  grind [certificateOf]

/-- A chain that was verified has one outcome. -/
theorem succeed_emits (env : Env κ ρ) (now : ℤ)
    (hm : TableOk P st.lastTimestamp) (caller : Caller) (chain : List SignedData) (nSteps : ℕ) :
    ∃ c, Emits P caller nSteps st (st.succeed env P now caller chain) [.call c] ∧
      (c.isThrown = false ↔ SucceedOk env P now caller st.lastTimestamp chain) := by
  induction chain generalizing st with
  | nil => exact onValidated_emits now hm caller nSteps
  | cons d chain ih =>
    unfold State.succeed SucceedOk
    rcases hcert : certificateOf env now d with c | cert
    · refine ⟨c, .call P nSteps st caller c, ?_⟩
      rw [certificateOf_error_isThrown hcert]
      simp
    have hok := certificateOk_of_ok hcert
    dsimp only
    by_cases hverify : (caller.current chain).verify env cert.key = true
    · rw [if_pos hverify]
      have hm' : TableOk P { st with cache := insertCertificate P cert st.cache }.lastTimestamp :=
        hm
      obtain ⟨c, hc, hthrown⟩ := ih hm'
      refine ⟨c, ⟨hc.log, hc.pending, hc.requests⟩, hthrown.trans ?_⟩
      simp_all
    · rw [if_neg hverify]
      refine ⟨.failed _, ⟨rfl, (append_nil _).symm, fun r hr => by simp at hr⟩, ?_⟩
      grind [Call.isThrown]

/-! ### Signatures -/

/-- A container that is to be read again. -/
def DynamicContainer.due (now : ℤ) (c : DynamicContainer κ) : Bool :=
  wrap64 (c.lastRefresh + c.refreshPeriod) < now

/-- The directories that are due can be read; the loop ends at the first that is not due. -/
def DirectoriesReadable (env : Env κ ρ) (now : ℤ) (p : Policy κ ρ) : Prop :=
  ∀ c ∈ p.dynamicContainers.takeWhile (DynamicContainer.due now),
    (env.directory now c.path).throws = false

/-- The state after the anchors are refreshed. -/
def State.refreshed (env : Env κ ρ) (now : ℤ) (st : State κ ρ) : State κ ρ :=
  { st with policy := (refreshAnchors env now st.policy).1 }

theorem refreshContainers_throws_iff (env : Env κ ρ) (now : ℤ) (cs : List (DynamicContainer κ)) :
    (refreshContainers env now cs).2.2 = false ↔
      ∀ c ∈ cs.takeWhile (DynamicContainer.due now), (env.directory now c.path).throws = false := by
  induction cs with
  | nil => simp [refreshContainers]
  | cons c cs ih =>
    unfold refreshContainers
    by_cases hdue : wrap64 (c.lastRefresh + c.refreshPeriod) < now
    · have htake : (c :: cs).takeWhile (DynamicContainer.due now) =
          c :: cs.takeWhile (DynamicContainer.due now) := by
        simp [DynamicContainer.due, hdue]
      grind
    · rw [if_neg hdue]
      simp_all [DynamicContainer.due]

/-- When the refresh of the anchors throws. -/
theorem refreshAnchors_throws_iff (env : Env κ ρ) (now : ℤ) (p : Policy κ ρ) :
    (refreshAnchors env now p).2 = false ↔ DirectoriesReadable env now p := by
  unfold DirectoriesReadable
  grind [refreshContainers_throws_iff, refreshAnchors]

/-- The key can be looked up without harm: directories are readable, it is an anchor or there is a
cache, and if its certificate verifies the signature, what follows goes well. -/
def KeyOk (env : Env κ ρ) (P : Params) (now : ℤ) (j : Job) (sig : Signature) (n : Name)
    (st : State κ ρ) : Prop :=
  DirectoriesReadable env now st.policy ∧
    (Cert.find (st.refreshed env now).policy.anchors n = none → P.hasCache = true) ∧
    ∀ cert, trustedCert P (st.refreshed env now) n = .ok (some cert) →
      env.verify j.packet.signed sig cert.key = true →
      SucceedOk env P now j.caller st.lastTimestamp j.chain

/-- The signature can be checked without harm. -/
def SignatureOk (env : Env κ ρ) (P : Params) (now : ℤ) (j : Job) (sig : Signature)
    (st : State κ ρ) : Prop :=
  (sig.type = digestSha256 → digestVerified env j.packet sig →
    SucceedOk env P now j.caller st.lastTimestamp j.chain) ∧
  ∀ locator n, IsPublicKeyType sig.type → sig.keyLocator = some locator →
    locator.getName = some n → KeyOk env P now j sig n st

/-- A fetch has one outcome. -/
theorem fetch_emits (P : Params) (st : State κ ρ) (j : Job) (n : Name) (nSteps : ℕ) :
    ∃ o : Outcome, Emits P j.caller nSteps st (st.fetch P j n nSteps) [o] ∧ o.isThrown = false := by
  unfold State.fetch
  by_cases hlimit : P.stepLimit = nSteps
  · rw [if_pos hlimit]
    exact ⟨_, .call P nSteps st j.caller _, rfl⟩
  rw [if_neg hlimit]
  by_cases hface : P.hasFace = true
  · rw [if_pos hface]
    refine ⟨.request ⟨j, n, 1, nSteps + 1⟩, ⟨(append_nil _).symm, rfl, fun r hr => ?_⟩, rfl⟩
    simp_all
  · rw [if_neg hface]
    exact ⟨_, .call P nSteps st j.caller _, rfl⟩

/-- The check with the anchors refreshed first. -/
theorem checkKeySignature_eq (env : Env κ ρ) (now : ℤ) (st : State κ ρ) (j : Job) (sig : Signature)
    (n : Name) (nSteps : ℕ) : checkKeySignature env P now j sig n nSteps st =
      if (refreshAnchors env now st.policy).2 then
        (st.refreshed env now).call j.caller (.thrown .filesystemError)
      else
        match trustedCert P (st.refreshed env now) n with
        | .error e => (st.refreshed env now).call j.caller (.thrown e)
        | .ok none => (st.refreshed env now).fetch P j n nSteps
        | .ok (some cert) =>
          if env.verify j.packet.signed sig cert.key then
            (st.refreshed env now).succeed env P now j.caller j.chain
          else (st.refreshed env now).call j.caller (.failed .cannotVerify) := rfl

/-- A check with a key has one outcome. -/
theorem checkKeySignature_emits (env : Env κ ρ) (now : ℤ)
    (hm : TableOk P st.lastTimestamp) (j : Job) (sig : Signature) (n : Name) (nSteps : ℕ) :
    ∃ o : Outcome, Emits P j.caller nSteps st (checkKeySignature env P now j sig n nSteps st) [o] ∧
      (o.isThrown = false ↔ KeyOk env P now j sig n st) := by
  have hthrows := refreshAnchors_throws_iff env now st.policy
  have hframe : ∀ {st' o}, Emits P j.caller nSteps (st.refreshed env now) st' [o] →
      Emits P j.caller nSteps st st' [o] := fun h => ⟨h.log, h.pending, h.requests⟩
  rw [checkKeySignature_eq]
  unfold KeyOk
  rw [← hthrows]
  by_cases hthrow : (refreshAnchors env now st.policy).2 = true
  · rw [if_pos hthrow]
    exact ⟨_, hframe (.call P nSteps _ j.caller _),
      by simp [isThrown, Call.isThrown, hthrow]⟩
  rw [if_neg hthrow]
  rw [Bool.not_eq_true] at hthrow
  rcases htrusted : trustedCert P (st.refreshed env now) n with e | found
  · refine ⟨_, hframe (.call P nSteps _ j.caller _), ?_⟩
    grind [trustedCert, isThrown, Call.isThrown]
  -- an anchor was found, or there is a cache
  have hpresent : Cert.find (st.refreshed env now).policy.anchors n = none →
      P.hasCache = true := by grind [trustedCert]
  rcases found with _ | cert
  · obtain ⟨o, ho, hfine⟩ := fetch_emits P (st.refreshed env now) j n nSteps
    grind
  dsimp only
  by_cases hverify : env.verify j.packet.signed sig cert.key = true
  · rw [if_pos hverify]
    have hm' : TableOk P (st.refreshed env now).lastTimestamp := hm
    obtain ⟨c, hc, hfine⟩ := succeed_emits env now hm' j.caller j.chain nSteps
    refine ⟨.call c, hframe hc, hfine.trans ?_⟩
    constructor
    · intro h
      exact ⟨hthrow, hpresent, fun _ _ _ => h⟩
    · intro h
      exact h.2.2 cert rfl hverify
  · rw [if_neg hverify]
    refine ⟨_, hframe (.call P nSteps _ j.caller _), ?_⟩
    grind [isThrown, Call.isThrown]

/-- A check of a signature has one outcome. -/
theorem checkSignature_emits (env : Env κ ρ) (now : ℤ)
    (hm : TableOk P st.lastTimestamp) (j : Job) (sig : Signature) (nSteps : ℕ) :
    ∃ o : Outcome, Emits P j.caller nSteps st (checkSignature env P now j sig nSteps st) [o] ∧
      (o.isThrown = false ↔ SignatureOk env P now j sig st) := by
  unfold checkSignature SignatureOk
  by_cases hdigest : sig.type = digestSha256
  · rw [if_pos hdigest]
    have hkey : ¬ IsPublicKeyType sig.type := by
      rw [hdigest]
      decide
    by_cases hverified : digestVerified env j.packet sig
    · rw [if_pos hverified]
      obtain ⟨c, hc, hfine⟩ := succeed_emits env now hm j.caller j.chain nSteps
      refine ⟨.call c, hc, hfine.trans ?_⟩
      simp_all
    · rw [if_neg hverified]
      refine ⟨_, .call P nSteps st j.caller _, ?_⟩
      simp [isThrown, Call.isThrown, hverified, hkey]
  rw [if_neg hdigest]
  by_cases hkey : IsPublicKeyType sig.type
  · rw [if_pos hkey]
    rcases hlocator : sig.keyLocator with _ | locator
    · refine ⟨_, .call P nSteps st j.caller _, ?_⟩
      simp [isThrown, Call.isThrown, hdigest]
    dsimp only
    cases hname : locator.getName with
    | none =>
      refine ⟨_, .call P nSteps st j.caller _, ?_⟩
      grind [isThrown, Call.isThrown]
    | some n =>
      obtain ⟨o, ho, hfine⟩ := checkKeySignature_emits env now hm j sig n nSteps
      grind
  · rw [if_neg hkey]
    refine ⟨_, .call P nSteps st j.caller _, ?_⟩
    simp [isThrown, Call.isThrown, hdigest, hkey]

/-! ### Checkers -/

/-- The checker has no objection to a packet of this name and a key of name `n`. -/
def Approves (env : Env κ ρ) (c : KeyLocatorChecker ρ) (packetName n : Name) : Prop :=
  match c with
  | .relation name r => checkRelation r name n = true
  | .regex r => env.matchName r n = true
  | .hyper pRegex kRegex r => env.matchName pRegex packetName = true ∧
      env.matchName kRegex n = true ∧ ∃ k p, env.expand kRegex n = some k ∧
        env.expand pRegex packetName = some p ∧ checkRelation r k p = true

/-- If both expressions of a hyper-relation match, both can be expanded. -/
def Expands (env : Env κ ρ) (c : KeyLocatorChecker ρ) (packetName n : Name) : Prop :=
  match c with
  | .hyper pRegex kRegex _ => env.matchName pRegex packetName = true →
      env.matchName kRegex n = true →
      (env.expand kRegex n).isSome = true ∧ (env.expand pRegex packetName).isSome = true
  | _ => True

/-- The checker has what it needs for a decision: the key locator, if it is to look at it, and the
expansions of its expressions. -/
def Decides (env : Env κ ρ) (c : Checker κ ρ) (p : Packet) (sig : Signature) : Prop :=
  match c with
  | .customized sigType k => sigType = sig.type → IsPublicKeyType sig.type →
      ∃ locator, sig.keyLocator = some locator ∧ ∀ packetName n, p.policyName = some packetName →
        locator.getName = some n → Expands env k packetName n
  | .fixedSigner sigType _ => sigType = sig.type → IsPublicKeyType sig.type →
      sig.keyLocator.isSome = true

/-- The checker has no objection to the packet. -/
def Accepts (env : Env κ ρ) (c : Checker κ ρ) (p : Packet) (sig : Signature) : Prop :=
  match c with
  | .customized sigType k => sigType = sig.type ∧ (sig.type = digestSha256 ∨
      IsPublicKeyType sig.type ∧ ∃ locator packetName n, sig.keyLocator = some locator ∧
        p.policyName = some packetName ∧ locator.getName = some n ∧ Approves env k packetName n)
  | .fixedSigner sigType signers => sigType = sig.type ∧ IsPublicKeyType sig.type ∧
      ∃ locator n signer, sig.keyLocator = some locator ∧ locator.getName = some n ∧
        Cert.find signers n = some signer ∧ env.verify p.signed sig signer.key = true

/-- What a checker that has no objection returns. -/
def yes : Checker κ ρ → Verdict
  | .customized _ _ => .further
  | .fixedSigner _ _ => .valid

/-- A checker that says yes does not say no. -/
theorem yes_ne_invalid (c : Checker κ ρ) : yes c ≠ .invalid := by
  cases c <;> simp [yes]

theorem not_isPublicKeyType_digest {type : ℕ} (h : type = digestSha256) :
    ¬ IsPublicKeyType type := by
  rw [h]
  decide

/-- When a checker of key locators approves. -/
theorem keyLocatorChecker_check (env : Env κ ρ) (c : KeyLocatorChecker ρ) (p : Packet)
    (locator : Locator) :
    (KeyLocatorChecker.check env c p locator = .ok none ↔ ∃ packetName n,
      p.policyName = some packetName ∧ locator.getName = some n ∧ Approves env c packetName n) ∧
    (KeyLocatorChecker.check env c p locator = .error .regexError ↔ ∃ packetName n,
      p.policyName = some packetName ∧ locator.getName = some n ∧ ¬ Expands env c packetName n) ∧
    ∀ e, KeyLocatorChecker.check env c p locator = .error e → e = .regexError := by
  unfold KeyLocatorChecker.check
  rcases hname : p.policyName with _ | packetName
  · simp
  rcases hlocator : locator.getName with _ | n
  · grind
  cases c with
  | relation name r =>
    by_cases h : checkRelation r name n = true <;> simp [h, Approves, Expands]
  | regex r =>
    by_cases h : env.matchName r n = true <;> simp [h, Approves, Expands]
  | hyper pRegex kRegex r =>
    by_cases hp : env.matchName pRegex packetName = true
    · by_cases hk : env.matchName kRegex n = true
      · cases hek : env.expand kRegex n with
        | none =>
          simp [hp, hk, hek, Approves, Expands]
        | some k =>
          cases hep : env.expand pRegex packetName with
          | none =>
            simp [hp, hk, hek, hep, Approves, Expands]
          | some p =>
            by_cases h : checkRelation r k p = true <;> simp [hp, hk, hek, hep, h, Approves,
                Expands]
      · simp [hp, hk, Approves, Expands]
    · simp [hp, Approves, Expands]

/-- A checker that can decide says yes silently or complains once; one that cannot complains and
throws a `tlv::Error`, complains twice, or throws another exception. -/
theorem checkWith_cases (env : Env κ ρ) (c : Checker κ ρ) (p : Packet) (sig : Signature) :
    (Decides env c p sig ∧ Accepts env c p sig ∧ checkWith env c p sig = ⟨[], yes c⟩) ∨
    (Decides env c p sig ∧ ¬ Accepts env c p sig ∧ ∃ f, checkWith env c p sig = ⟨[f], .invalid⟩) ∨
    (¬ Decides env c p sig ∧ ((∃ f, checkWith env c p sig = ⟨[f], .throws .tlvError⟩) ∨
      (∃ f g, checkWith env c p sig = ⟨[f, g], .invalid⟩) ∨
      checkWith env c p sig = ⟨[], .throws .regexError⟩)) := by
  cases c with
  | customized sigType k =>
    simp only [checkWith, customizedCheck, Decides, Accepts, yes]
    by_cases htype : sigType = sig.type
    · by_cases hdigest : sig.type = digestSha256
      · grind [not_isPublicKeyType_digest]
      by_cases hkey : IsPublicKeyType sig.type
      · cases hlocator : sig.keyLocator with
        | none => simp_all
        | some locator =>
          obtain ⟨hok, herror, honly⟩ := keyLocatorChecker_check env k p locator
          rcases hcheck : KeyLocatorChecker.check env k p locator with e | answer
          · have he := honly e hcheck
            subst he
            obtain ⟨packetName, n, hp, hn, hexpands⟩ := herror.mp hcheck
            refine .inr (.inr ⟨?_, .inr (.inr (by simp [htype, hdigest, hkey, hcheck]))⟩)
            intro h
            obtain ⟨l, hl, hall⟩ := h htype hkey
            cases hl
            exact hexpands (hall packetName n hp hn)
          have hdecides : sigType = sig.type → IsPublicKeyType sig.type →
              ∃ l, some locator = some l ∧ ∀ packetName n, p.policyName = some packetName →
                l.getName = some n → Expands env k packetName n := by
            refine fun _ _ => ⟨locator, rfl, fun packetName n hp hn => ?_⟩
            simp_all
          rcases answer with _ | f
          · obtain ⟨packetName, n, hp, hn, happroves⟩ := hok.mp hcheck
            exact .inl ⟨hdecides,
              ⟨htype, .inr ⟨hkey, locator, packetName, n, rfl, hp, hn, happroves⟩⟩,
              by simp [htype, hdigest, hkey, hcheck]⟩
          refine .inr (.inl ⟨hdecides, ?_, f, by simp [htype, hdigest, hkey, hcheck]⟩)
          rintro ⟨-, hd | ⟨-, l, packetName, n, hl, hp, hn, happroves⟩⟩
          · exact hdigest hd
          · cases hl
            simp_all
      · refine .inr (.inl ⟨fun _ h => absurd h hkey, ?_, .unsupportedSignatureType,
          by simp [htype, hdigest, hkey]⟩)
        simp_all
    · exact .inr (.inl ⟨fun h => absurd h htype, fun h => htype h.1,
        .typeMismatch sigType sig.type, by simp [htype]⟩)
  | fixedSigner sigType signers =>
    simp only [checkWith, fixedSignerCheck, Decides, Accepts, yes]
    by_cases htype : sigType = sig.type
    · by_cases hdigest : sig.type = digestSha256
      · grind [not_isPublicKeyType_digest]
      by_cases hkey : IsPublicKeyType sig.type
      · cases hlocator : sig.keyLocator with
        | none => simp_all
        | some locator =>
          rcases hname : locator.getName with _ | n
          · refine .inr (.inl ⟨fun _ _ => rfl, ?_, .keyLocatorHasNoName,
              by simp [htype, hdigest, hkey, hname]⟩)
            simp_all
          rcases hfind : Cert.find signers n with _ | signer
          · refine .inr (.inl ⟨fun _ _ => rfl, ?_, .signerNotInList n,
              by simp [htype, hdigest, hkey, hname, hfind]⟩)
            simp_all
          by_cases hverify : env.verify p.signed sig signer.key = true
          · exact .inl ⟨fun _ _ => rfl,
              ⟨htype, hkey, locator, n, signer, rfl, hname, hfind, hverify⟩,
              by simp [htype, hdigest, hkey, hname, hfind, hverify]⟩
          · refine .inr (.inl ⟨fun _ _ => rfl, ?_, .cannotBeValidated,
              by simp [htype, hdigest, hkey, hname, hfind, hverify]⟩)
            rintro ⟨-, -, l, n', signer', hl, hn, hsigner, hv⟩
            simp_all
      · exact .inr (.inl ⟨fun _ h => absurd h hkey, fun h => hkey h.2.1,
          .unsupportedSignatureType, by simp [htype, hdigest, hkey]⟩)
    · exact .inr (.inl ⟨fun h => absurd h htype, fun h => htype h.1,
        .typeMismatch sigType sig.type, by simp [htype]⟩)

/-- How many outcomes a result of checkers leads to. -/
def CheckResult.outcomes (r : CheckResult) : ℕ :=
  r.failures.length + if r.verdict = .invalid then 0 else 1

variable {sig : Signature} {p : Packet}

/-- A checker accepts, refuses, or throws. -/
theorem check_cases (hsig : p.signature = some sig) (env : Env κ ρ) (c : Checker κ ρ) :
    (Decides env c p sig ∧ Accepts env c p sig ∧ Checker.check env c p = ⟨[], yes c⟩) ∨
    (Decides env c p sig ∧ ¬ Accepts env c p sig ∧ ∃ f, Checker.check env c p = ⟨[f], .invalid⟩) ∨
    (¬ Decides env c p sig ∧ (2 ≤ (Checker.check env c p).failures.length ∧
        (Checker.check env c p).verdict = .invalid ∨
      ∃ e, (Checker.check env c p).verdict = .throws e)) := by
  have hcases := checkWith_cases env c p sig
  cases p with
  | data d =>
    cases hsig
    simp only [Checker.check]
    rcases hcases with h | h | ⟨hd, ⟨f, h⟩ | ⟨f, g, h⟩ | h⟩
    · exact .inl h
    · exact .inr (.inl h)
    · exact .inr (.inr ⟨hd, .inr ⟨.tlvError, by rw [h]⟩⟩)
    · exact .inr (.inr ⟨hd, .inl (by simp [h])⟩)
    · exact .inr (.inr ⟨hd, .inr ⟨.regexError, by rw [h]⟩⟩)
  | interest n =>
    have hsig' : signatureOf n = some sig := hsig
    simp only [Checker.check, hsig']
    rcases hcases with ⟨hd, ha, h⟩ | ⟨hd, ha, f, h⟩ | ⟨hd, ⟨f, h⟩ | ⟨f, g, h⟩ | h⟩
    · refine .inl ⟨hd, ha, ?_⟩
      rw [h]
      cases c <;> simp [yes]
    · exact .inr (.inl ⟨hd, ha, f, by simp [h]⟩)
    · exact .inr (.inr ⟨hd, .inl (by simp [h])⟩)
    · exact .inr (.inr ⟨hd, .inl (by simp [h])⟩)
    · exact .inr (.inr ⟨hd, .inr ⟨.regexError, by simp [h]⟩⟩)

/-- A checker has an outcome. -/
theorem one_le_outcomes_check (hsig : p.signature = some sig)
    (env : Env κ ρ) (c : Checker κ ρ) : 1 ≤ (Checker.check env c p).outcomes := by
  unfold CheckResult.outcomes
  rcases check_cases hsig env c with ⟨-, -, h⟩ | ⟨-, -, f, h⟩ | ⟨-, ⟨h, -⟩ | ⟨e, h⟩⟩
  · simp [h, yes_ne_invalid]
  · simp [h]
  · omega
  · simp [h]

/-- The outcomes of one checker more. -/
theorem outcomes_checkAll_cons {c : Checker κ ρ} {cs : List (Checker κ ρ)}
    (h : (Checker.check env c p).verdict = .invalid) :
    (checkAll env p (c :: cs)).outcomes =
      (Checker.check env c p).failures.length + (checkAll env p cs).outcomes := by
  simp only [checkAll, h, if_true, CheckResult.outcomes, length_append]
  omega

/-- Checkers have an outcome if there are any. -/
theorem one_le_outcomes_checkAll (env : Env κ ρ) (hsig : p.signature = some sig)
    {cs : List (Checker κ ρ)} (hcs : cs ≠ []) : 1 ≤ (checkAll env p cs).outcomes := by
  cases cs with
  | nil => exact absurd rfl hcs
  | cons c cs => grind [one_le_outcomes_check, CheckResult.outcomes, checkAll]

/-! ### Rules -/

/-- What has to hold after a checker said yes. -/
def AfterYes (env : Env κ ρ) (P : Params) (now : ℤ) (j : Job) (sig : Signature) (st : State κ ρ) :
    Checker κ ρ → Prop
  | .customized _ _ => SignatureOk env P now j sig st
  | .fixedSigner _ _ => SucceedOk env P now j.caller st.lastTimestamp j.chain

/-- The first checker decides.  If it says no, it is the only one. -/
def CheckersOk (env : Env κ ρ) (P : Params) (now : ℤ) (j : Job) (sig : Signature)
    (st : State κ ρ) : List (Checker κ ρ) → Prop
  | [] => False
  | c :: cs => Decides env c j.packet sig ∧
      (Accepts env c j.packet sig → AfterYes env P now j sig st c) ∧
      (¬ Accepts env c j.packet sig → cs = [])

/-- The checkers of the first rule that matches are in order. -/
def RulesOk (env : Env κ ρ) (P : Params) (now : ℤ) (rules : List (Rule κ ρ)) (j : Job)
    (sig : Signature) (st : State κ ρ) : Prop :=
  ∀ rule, rules.find? (fun r => Rule.matchPacket env r j.packet) = some rule →
    CheckersOk env P now j sig st rule.checkers

/-- What follows the checkers of the rule. -/
def afterCheckers (env : Env κ ρ) (P : Params) (now : ℤ) (j : Job) (sig : Signature) (nSteps : ℕ)
    (r : CheckResult) (st : State κ ρ) : State κ ρ :=
  match r.verdict with
  | .invalid => st.failAll j.caller r.failures
  | .valid => (st.failAll j.caller r.failures).succeed env P now j.caller j.chain
  | .further => checkSignature env P now j sig nSteps (st.failAll j.caller r.failures)
  | .throws e => (st.failAll j.caller r.failures).call j.caller (.thrown e)

/-- Failures leave the timestamps. -/
theorem failAll_lastTimestamp (st : State κ ρ) (caller : Caller) (fs : List FailInfo) :
    (st.failAll caller fs).lastTimestamp = st.lastTimestamp := by
  induction fs generalizing st with
  | nil => rfl
  | cons f fs ih => exact ih _

/-- The outcomes after the checkers. -/
theorem afterCheckers_emits (env : Env κ ρ) (now : ℤ)
    (hm : TableOk P st.lastTimestamp) (j : Job) (sig : Signature) (nSteps : ℕ) (r : CheckResult) :
    ∃ os, Emits P j.caller nSteps st (afterCheckers env P now j sig nSteps r st) os ∧
      os.length = r.outcomes ∧ ∀ e, r.verdict = .throws e → call (.thrown e) ∈ os := by
  have hfail := Emits.failAll P nSteps st j.caller r.failures
  have hm' : TableOk P (st.failAll j.caller r.failures).lastTimestamp := by
    rwa [failAll_lastTimestamp]
  unfold afterCheckers CheckResult.outcomes
  cases hverdict : r.verdict with
  | invalid => exact ⟨_, hfail, by simp, fun e he => by cases he⟩
  | valid =>
    obtain ⟨c, hc, -⟩ := succeed_emits env now hm' j.caller j.chain nSteps
    exact ⟨_, hfail.trans hc, by simp, fun e he => by cases he⟩
  | further =>
    obtain ⟨o, ho, -⟩ := checkSignature_emits env now hm' j sig nSteps
    exact ⟨_, hfail.trans ho, by simp, fun e he => by cases he⟩
  | throws e =>
    refine ⟨_, hfail.trans (.call P nSteps _ j.caller _), by simp, fun e' he' => ?_⟩
    cases he'
    simp

/-- The outcomes of the checkers. -/
theorem checkers_emits (env : Env κ ρ) (now : ℤ) (hm : TableOk P st.lastTimestamp) {j : Job}
    (hsig : j.packet.signature = some sig) (nSteps : ℕ) (cs : List (Checker κ ρ)) :
    ∃ os, Emits P j.caller nSteps st
        (afterCheckers env P now j sig nSteps (checkAll env j.packet cs) st) os ∧
      (Single os ↔ CheckersOk env P now j sig st cs) := by
  obtain ⟨os, hos, hlength, hthrows⟩ :=
    afterCheckers_emits env now hm j sig nSteps (checkAll env j.packet cs)
  -- more than one outcome, or an exception among them
  have hmany : 2 ≤ (checkAll env j.packet cs).outcomes → ¬ Single os := by
    intro h hs
    have := hs.length_eq_one
    omega
  have hexception : ∀ e, (checkAll env j.packet cs).verdict = .throws e → ¬ Single os := by
    rintro e he ⟨o, rfl, ho⟩
    have hmem := hthrows e he
    rw [mem_singleton] at hmem
    rw [← hmem] at ho
    cases ho
  rcases cs with _ | ⟨c, cs⟩
  · refine ⟨os, hos, iff_of_false ?_ id⟩
    intro hs
    have hone := hs.length_eq_one
    have hzero : (checkAll env j.packet []).outcomes = 0 := rfl
    omega
  rcases check_cases hsig env c with ⟨hd, ha, h⟩ | ⟨hd, ha, f, h⟩ | ⟨hd, h⟩
  · -- the checker says yes: what follows has one outcome
    have hall : checkAll env j.packet (c :: cs) = ⟨[], yes c⟩ := by
      simp [checkAll, h, yes_ne_invalid]
    rw [hall]
    have hiff : CheckersOk env P now j sig st (c :: cs) ↔ AfterYes env P now j sig st c :=
      ⟨fun hok => hok.2.1 ha, fun hok => ⟨hd, fun _ => hok, fun hna => absurd ha hna⟩⟩
    rw [hiff]
    cases c with
    | customized sigType k =>
      obtain ⟨o, ho, hfine⟩ := checkSignature_emits env now hm j sig nSteps
      exact ⟨[o], ho, (single_singleton o).trans hfine⟩
    | fixedSigner sigType signers =>
      obtain ⟨c, hc, hfine⟩ := succeed_emits env now hm j.caller j.chain nSteps
      exact ⟨[.call c], hc, (single_singleton _).trans hfine⟩
  · -- it says no: the next checker would have an outcome of its own
    have hcount : (checkAll env j.packet (c :: cs)).outcomes =
        1 + (checkAll env j.packet cs).outcomes := by
      rw [outcomes_checkAll_cons (by rw [h]), h]
      rfl
    cases hcs : cs with
    | nil =>
      have hall : checkAll env j.packet [c] = ⟨[f], .invalid⟩ := by
        simp [checkAll, h]
      rw [hall]
      refine ⟨[.call (.failed f)], .failAll P nSteps st j.caller [f], ?_⟩
      rw [single_singleton]
      exact iff_of_true rfl ⟨hd, fun hyes => absurd hyes ha, fun _ => rfl⟩
    | cons c' cs' =>
      rw [hcs] at hcount hos hmany
      have hone := one_le_outcomes_checkAll env hsig (cons_ne_nil c' cs')
      refine ⟨os, hos, iff_of_false (hmany (by omega)) fun hok => ?_⟩
      exact absurd (hok.2.2 ha) (cons_ne_nil c' cs')
  · -- it cannot decide
    refine ⟨os, hos, iff_of_false ?_ fun hok => hd hok.1⟩
    grind [outcomes_checkAll_cons, checkAll]

/-- The outcomes of the rules. -/
theorem checkRules_emits (env : Env κ ρ) (now : ℤ) (hm : TableOk P st.lastTimestamp) {j : Job}
    (hsig : j.packet.signature = some sig) (nSteps : ℕ) (rules : List (Rule κ ρ)) :
    ∃ os, Emits P j.caller nSteps st (checkRules env P now rules j sig nSteps st) os ∧
      (Single os ↔ RulesOk env P now rules j sig st) := by
  unfold checkRules RulesOk
  cases hfind : rules.find? fun r => Rule.matchPacket env r j.packet with
  | none =>
    refine ⟨_, .call P nSteps st j.caller _, ?_⟩
    simp [isThrown, Call.isThrown]
  | some rule =>
    obtain ⟨os, hos, hiff⟩ := checkers_emits env now hm hsig nSteps rule.checkers
    refine ⟨os, hos, hiff.trans ?_⟩
    simp

/-- The packet of a job comes to exactly one end. -/
def PolicyOk (env : Env κ ρ) (P : Params) (now : ℤ) (j : Job) (st : State κ ρ) : Prop :=
  if st.policy.shouldValidate = false then
    SucceedOk env P now j.caller st.lastTimestamp j.chain
  else
    match j.packet with
    | .data d => RulesOk env P now st.policy.dataRules j d.signature st
    | .interest n => ∀ sig keyName, signingKey n = .ok (sig, keyName) →
        RulesOk env P now st.policy.interestRules
          { j with caller := { j.caller with keyName := some keyName } } sig st

/-- A signing key comes with a signature. -/
theorem signatureOf_of_signingKey {n keyName : Name}
    (h : signingKey n = .ok (sig, keyName)) : signatureOf n = some sig := by
  unfold signingKey at h
  split at h
  · cases h
  cases hsig : signatureOf n with
  | none =>
    rw [hsig] at h
    cases h
  | some sig' => grind

/-- The outcomes of a check. -/
theorem checkPolicy_emits (env : Env κ ρ) (now : ℤ)
    (hm : TableOk P st.lastTimestamp) (j : Job) (nSteps : ℕ) :
    ∃ os, Emits P j.caller nSteps st (checkPolicy env P now j nSteps st) os ∧
      (Single os ↔ PolicyOk env P now j st) := by
  unfold checkPolicy PolicyOk
  by_cases hflag : st.policy.shouldValidate = false
  · rw [if_pos hflag, if_pos hflag]
    obtain ⟨c, hc, hfine⟩ := succeed_emits env now hm j.caller j.chain nSteps
    exact ⟨[.call c], hc, (single_singleton _).trans hfine⟩
  rw [if_neg hflag, if_neg hflag]
  cases hpacket : j.packet with
  | data d =>
    have hsig : j.packet.signature = some d.signature := by rw [hpacket]; rfl
    exact checkRules_emits env now hm hsig nSteps st.policy.dataRules
  | interest n =>
    dsimp only
    rcases hkey : signingKey n with f | found
    · refine ⟨_, .call P nSteps st j.caller _, ?_⟩
      simp [isThrown, Call.isThrown]
    obtain ⟨sig, keyName⟩ := found
    have hsig : j.packet.signature = some sig := by
      rw [hpacket]
      exact signatureOf_of_signingKey hkey
    let j' : Job := { j with caller := { j.caller with keyName := some keyName } }
    have hsig' : j'.packet.signature = some sig := by
      have hcurrent : j'.packet = j.packet := by
        cases j.chain <;> rfl
      rw [hcurrent, hsig]
    obtain ⟨os, hos, hiff⟩ := checkRules_emits env now hm hsig' nSteps st.policy.interestRules
    grind [hos.of_bound]

end IcnDemo.Validator
