import IcnDemo.Validator.Effects

/-!
# What a load leaves of the past

After a successful `load`, two validators should decide alike whatever happened to them before.  The
rules, the anchors and the containers are those of the new configuration.  Three things are not: the
flag `m_shouldValidate`, which a trust anchor of type `any` clears and nothing ever sets again; the
certificate cache, which is cleared by a handler of the event loop and may still be full when `load`
was called outside of it; and the requests for certificates that are not answered yet, together with
the certificates that were checked by the old rules on the way to them.

States are compared by `Agree`, which leaves out the timestamps.  It is kept by every event, so from
it follow equal decisions in all that comes after.
-/

namespace IcnDemo

open List Security Conf

namespace Conf

theorem Keyword.is_eq_false {k : Keyword} {t : Text} (h : k.is t = true) (k' : Keyword)
    (hne : iequals k.text k'.text = false) : k'.is t = false := by
  unfold Keyword.is iequals at *
  rw [beq_iff_eq] at h
  rw [h]
  exact hne

/-- A trust anchor of type `any`. -/
def ConfigSection.isAny (s : ConfigSection) : Bool :=
  match s.children with
  | [] => false
  | (key, type) :: _ => Keyword.type.is key && Keyword.any.is type.data

/-- One of the sections is a trust anchor of type `any`. -/
def hasAny (sections : Properties) : Bool :=
  sections.any fun c => Keyword.trustAnchor.is c.1 && c.2.isAny

end Conf

namespace Validator

variable {κ ρ : Type}

/-! ### Decisions -/

/-- What a callback says. -/
inductive Decision where
  | accept
  | reject
  | exception
deriving DecidableEq, Repr

/-- The reasons that come from `checkTimestamp`. -/
def FailInfo.isTimestamp : FailInfo → Bool
  | cannotDecodeTimestamp | notInGraceInterval | outdated => true
  | _ => false

/-- The decision about a packet, its timestamp not considered. -/
def Call.decision : Call → Decision
  | validated => .accept
  | failed f => if f.isTimestamp then .accept else .reject
  | thrown .timestampAbsent => .accept
  | thrown _ => .exception

/-- The decision of a callback, with its call. -/
def Entry.decision (e : Entry) : ℕ × Decision :=
  (e.id, e.call.decision)

/-- The decisions that some events lead to. -/
def decisions (env : Env κ ρ) (P : Params) (st : State κ ρ) (es : List (ℤ × Event)) :
    List (ℕ × Decision) :=
  ((run env P st es).log.drop st.log.length).map Entry.decision

/-! ### Loading sections -/

section Sections

variable (env : Env κ ρ) (now : ℤ)

/-- A policy with another value of the flag. -/
def Policy.setFlag (b : Bool) (p : Policy κ ρ) : Policy κ ρ :=
  { p with shouldValidate := b }

@[simp] theorem setFlag_setFlag (b c : Bool) (p : Policy κ ρ) :
    (p.setFlag b).setFlag c = p.setFlag c := rfl

@[simp] theorem setFlag_self (p : Policy κ ρ) : p.setFlag p.shouldValidate = p := rfl

/-- What a section does to a policy: to the flag, and to the rest whatever the flag is. -/
structure FlagStep (g : Policy κ ρ → Policy κ ρ × Option Error) (any : Bool) : Prop where
  /-- Errors do not depend on the flag. -/
  error : ∀ b p, (g (p.setFlag b)).2 = (g p).2
  /-- Nor does the rest of the policy. -/
  rest : ∀ b c p, (g (p.setFlag b)).1.setFlag c = (g p).1.setFlag c
  /-- The flag is cleared or kept. -/
  flag : ∀ p, (g p).2 = none → (g p).1.shouldValidate = (p.shouldValidate && !any)
  /-- It is kept, even when there is an error, if the type `any` does not occur. -/
  keep : any = false → ∀ p, (g p).1.shouldValidate = p.shouldValidate

/-- A step that ignores the flag. -/
theorem FlagStep.of_comm {g : Policy κ ρ → Policy κ ρ × Option Error}
    (h : ∀ b p, g (p.setFlag b) = ((g p).1.setFlag b, (g p).2)) : FlagStep g false where
  error b p := by rw [h]
  rest b c p := by rw [h, setFlag_setFlag]
  flag p _ := by
    have hself := h p.shouldValidate p
    rw [setFlag_self] at hself
    rw [hself, Bool.not_false, Bool.and_true]
    rfl
  keep _ p := by
    have hself := h p.shouldValidate p
    rw [setFlag_self] at hself
    rw [hself]
    rfl

variable (filename : Text)

/-- A rule ignores the flag. -/
theorem flagStep_onConfigRule (s : ConfigSection) :
    FlagStep (onConfigRule env now filename s) false := by
  apply FlagStep.of_comm
  intro b p
  unfold onConfigRule
  split
  · rfl
  · unfold addRule
    split <;> rfl

/-- A directory of anchors ignores the flag. -/
theorem onConfigDir_setFlag (rest : Properties) (b : Bool) (p : Policy κ ρ) :
    onConfigDir env now filename rest (p.setFlag b) =
      ((onConfigDir env now filename rest p).1.setFlag b,
        (onConfigDir env now filename rest p).2) := by
  unfold onConfigDir
  split
  · rfl
  · rfl
  · split
    · split <;> rfl
    · rfl

/-- A trust anchor of type `any` clears the flag. -/
theorem flagStep_onConfigTrustAnchor (s : ConfigSection) :
    FlagStep (onConfigTrustAnchor env now filename s) s.isAny := by
  -- only the type `any` touches the flag; the other words are different from it
  by_cases hany : s.isAny = true
  · unfold ConfigSection.isAny at hany
    split at hany
    · simp at hany
    rename_i key type rest hchildren
    rw [Bool.and_eq_true] at hany
    have hfile := Keyword.is_eq_false hany.2 .file (by decide)
    have hbase := Keyword.is_eq_false hany.2 .base64 (by decide)
    have hdir := Keyword.is_eq_false hany.2 .dir (by decide)
    have hg : onConfigTrustAnchor env now filename s =
        fun p : Policy κ ρ => (p.setFlag false, none) := by
      grind [onConfigTrustAnchor, expect, Policy.setFlag]
    have hisAny : s.isAny = true := by
      simp [ConfigSection.isAny, hchildren, hany.1, hany.2]
    rw [hg, hisAny]
    exact ⟨fun _ _ => rfl, fun _ _ _ => rfl, fun p _ => by simp [Policy.setFlag],
      fun h => by cases h⟩
  rw [Bool.not_eq_true] at hany
  rw [hany]
  apply FlagStep.of_comm
  intro b p
  unfold onConfigTrustAnchor
  split
  · rfl
  rename_i type rest hexpect
  split
  · split <;> rfl
  split
  · split <;> rfl
  · split
    · exact onConfigDir_setFlag env now filename rest b p
    · split
      all_goals grind [expect, ConfigSection.isAny]

/-- A section clears the flag if it is such an anchor. -/
theorem flagStep_onConfigSection (c : Text × ConfigSection) :
    FlagStep (onConfigSection env now filename c) (Keyword.trustAnchor.is c.1 && c.2.isAny) := by
  have hg : onConfigSection env now filename c = fun p : Policy κ ρ =>
      if Keyword.rule.is c.1 then onConfigRule env now filename c.2 p
      else if Keyword.trustAnchor.is c.1 then onConfigTrustAnchor env now filename c.2 p
      else (p, some (.unrecognizedSection filename c.1)) := rfl
  by_cases hrule : Keyword.rule.is c.1 = true
  · have hanchor := Keyword.is_eq_false hrule .trustAnchor (by decide)
    simp_all [flagStep_onConfigRule]
  · by_cases hanchor : Keyword.trustAnchor.is c.1 = true
    all_goals simp_all [flagStep_onConfigTrustAnchor, FlagStep.of_comm]

/-- The loop of `load` ends at the first section that throws. -/
theorem loadSections_cons (c : Text × ConfigSection) (sections : Properties)
    (p : Policy κ ρ) : loadSections env now filename (c :: sections) p =
      match (onConfigSection env now filename c p).2 with
      | some e => ((onConfigSection env now filename c p).1, some e)
      | none => loadSections env now filename sections (onConfigSection env now filename c p).1 :=
  rfl

/-- The loop of `load` reads the same out of the sections whatever the flag is, and clears the flag
if one of them is a trust anchor of type `any`. -/
theorem flagStep_loadSections (sections : Properties) :
    FlagStep (loadSections env now filename sections) (hasAny sections) := by
  induction sections with
  | nil => exact FlagStep.of_comm fun _ _ => rfl
  | cons c sections ih =>
    have hc := flagStep_onConfigSection env now filename c
    have hcons := loadSections_cons env now filename c sections
    refine ⟨fun b p => ?_, fun b d p => ?_, fun p hok => ?_, fun hno p => ?_⟩
    · rw [hcons, hcons, hc.error]
      cases he : (onConfigSection env now filename c p).2 with
      | some e => rfl
      | none =>
        have hrest := hc.rest b true p
        rw [← ih.error true (onConfigSection env now filename c p).1, ← hrest, ih.error true]
    · rw [hcons, hcons, hc.error]
      cases he : (onConfigSection env now filename c p).2 with
      | some e => exact hc.rest b d p
      | none =>
        have hrest := hc.rest b true p
        rw [← ih.rest true d (onConfigSection env now filename c p).1, ← hrest, ih.rest true d]
    · grind [ih.flag, hc.flag, hasAny]
    · grind [hasAny, hc.keep, ih.keep]

end Sections

/-! ### States that decide alike -/

/-- Two states that decide alike, after logs that agree in what they have more than `l₁` and
`l₂`. -/
structure Agree (l₁ l₂ : List Entry) (st₁ st₂ : State κ ρ) : Prop where
  policy : st₁.policy = st₂.policy
  cache : st₁.cache = st₂.cache
  postedResets : st₁.postedResets = st₂.postedResets
  pending : st₁.pending = st₂.pending
  log : ∃ t₁ t₂, st₁.log = l₁ ++ t₁ ∧ st₂.log = l₂ ++ t₂ ∧
    t₁.map Entry.decision = t₂.map Entry.decision

variable {env : Env κ ρ} {P : Params} {now : ℤ} {l₁ l₂ : List Entry}
  {st₁ st₂ : State κ ρ}

namespace Agree

variable (h : Agree l₁ l₂ st₁ st₂)

include h

theorem call (caller : Caller) {c₁ c₂ : Call}
    (hc : c₁.decision = c₂.decision) : Agree l₁ l₂ (st₁.call caller c₁) (st₂.call caller c₂) := by
  obtain ⟨t₁, t₂, h₁, h₂, ht⟩ := h.log
  refine ⟨h.policy, h.cache, h.postedResets, h.pending, ?_⟩
  refine ⟨t₁ ++ [⟨caller.id, caller.packet, c₁⟩], t₂ ++ [⟨caller.id, caller.packet, c₂⟩], ?_,
    ?_, ?_⟩
  · rw [← append_assoc, ← h₁]
    rfl
  · rw [← append_assoc, ← h₂]
    rfl
  · simp [Entry.decision, ht, hc]

theorem failAll (caller : Caller) (fs : List FailInfo) :
    Agree l₁ l₂ (st₁.failAll caller fs) (st₂.failAll caller fs) := by
  induction fs generalizing st₁ st₂ with
  | nil => exact h
  | cons f fs ih => exact ih (h.call caller rfl)

theorem withTimestamps (m₁ m₂ : LastTimestampMap) :
    Agree l₁ l₂ { st₁ with lastTimestamp := m₁ } { st₂ with lastTimestamp := m₂ } :=
  ⟨h.policy, h.cache, h.postedResets, h.pending, h.log⟩

theorem withPolicy (p : Policy κ ρ) :
    Agree l₁ l₂ { st₁ with policy := p } { st₂ with policy := p } :=
  ⟨rfl, h.cache, h.postedResets, h.pending, h.log⟩

theorem withCache (c : List (Cert κ)) :
    Agree l₁ l₂ { st₁ with cache := c } { st₂ with cache := c } :=
  ⟨h.policy, rfl, h.postedResets, h.pending, h.log⟩

theorem addRequest (r : Request) : Agree l₁ l₂ { st₁ with pending := st₁.pending ++ [r] }
      { st₂ with pending := st₂.pending ++ [r] } := by
  refine ⟨h.policy, h.cache, h.postedResets, ?_, h.log⟩
  dsimp only
  rw [h.pending]

end Agree

/-- A timestamp is rejected with a message about timestamps. -/
theorem isTimestamp_of_rejected {interest keyName : Name} {m : LastTimestampMap} {f : FailInfo}
    (h : checkTimestamp P now interest keyName m = .rejected f) : f.isTimestamp = true := by
  unfold checkTimestamp at h
  split at h
  · cases h
    rfl
  split at h
  · split at h
    · split at h <;> cases h
    · cases h
      rfl
  · split at h
    · cases h
      rfl
    · cases h

/-- A validated packet is accepted, or rejected for its timestamp. -/
theorem onValidated_eq (P : Params) (now : ℤ) (st : State κ ρ) (caller : Caller) :
    ∃ m c, st.onValidated P now caller = { st with lastTimestamp := m }.call caller c ∧
      c.decision = .accept := by
  unfold State.onValidated
  split
  · exact ⟨st.lastTimestamp, .validated, rfl, rfl⟩
  · split
    all_goals grind [Call.decision, isTimestamp_of_rejected]

namespace Agree

variable (h : Agree l₁ l₂ st₁ st₂)

include h

theorem onValidated (caller : Caller) :
    Agree l₁ l₂ (st₁.onValidated P now caller) (st₂.onValidated P now caller) := by
  obtain ⟨m₁, c₁, h₁, hc₁⟩ := onValidated_eq P now st₁ caller
  obtain ⟨m₂, c₂, h₂, hc₂⟩ := onValidated_eq P now st₂ caller
  rw [h₁, h₂]
  exact (h.withTimestamps m₁ m₂).call caller (hc₁.trans hc₂.symm)

/-- Chains that were verified. -/
theorem succeed (caller : Caller) (chain : List SignedData) :
    Agree l₁ l₂ (st₁.succeed env P now caller chain) (st₂.succeed env P now caller chain) := by
  induction chain generalizing st₁ st₂ with
  | nil => exact h.onValidated caller
  | cons d chain ih =>
    unfold State.succeed
    split
    · exact h.call caller rfl
    · rename_i cert hcert
      have hcache := h.withCache (insertCertificate P cert st₁.cache)
      grind [h.cache, hcache.call]

variable (j : Job) (sig : Signature) (n : Name)

theorem fetch (nSteps : ℕ) : Agree l₁ l₂ (st₁.fetch P j n nSteps) (st₂.fetch P j n nSteps) := by
  unfold State.fetch
  grind [h.call, h.addRequest]

/-- The same certificates are trusted. -/
theorem trustedCert_eq : trustedCert P st₁ n = trustedCert P st₂ n := by
  unfold trustedCert
  rw [h.policy, h.cache]

/-- Signatures that are checked with a key. -/
theorem checkKeySignature
    (nSteps : ℕ) : Agree l₁ l₂ (checkKeySignature env P now j sig n nSteps st₁)
      (checkKeySignature env P now j sig n nSteps st₂) := by
  unfold Validator.checkKeySignature
  rw [h.policy]
  have hp := h.withPolicy (refreshAnchors env now st₂.policy).1
  dsimp only
  rw [hp.trustedCert_eq n]
  split
  · exact hp.call j.caller rfl
  split
  · exact hp.call j.caller rfl
  · exact hp.fetch j n nSteps
  · split
    · exact hp.succeed j.caller j.chain
    · exact hp.call j.caller rfl

/-- Signatures that are checked. -/
theorem checkSignature (nSteps : ℕ) :
    Agree l₁ l₂ (checkSignature env P now j sig nSteps st₁)
      (checkSignature env P now j sig nSteps st₂) := by
  unfold Validator.checkSignature
  split
  · split
    · exact h.succeed j.caller j.chain
    · exact h.call j.caller rfl
  split
  · split
    · exact h.call j.caller rfl
    · split
      · exact h.call j.caller rfl
      · exact h.checkKeySignature j sig _ nSteps
  · exact h.call j.caller rfl

/-- Rules that are checked. -/
theorem checkRules (rules : List (Rule κ ρ)) (j : Job)
    (sig : Signature) (nSteps : ℕ) : Agree l₁ l₂ (checkRules env P now rules j sig nSteps st₁)
      (checkRules env P now rules j sig nSteps st₂) := by
  unfold Validator.checkRules
  split
  · exact h.call j.caller rfl
  rename_i rule hrule
  have hf := h.failAll j.caller (checkAll env j.packet rule.checkers).failures
  dsimp only
  split
  · exact hf
  · exact hf.succeed j.caller j.chain
  · exact hf.checkSignature j sig nSteps
  · exact hf.call j.caller rfl

theorem checkPolicy (nSteps : ℕ) :
    Agree l₁ l₂ (checkPolicy env P now j nSteps st₁) (checkPolicy env P now j nSteps st₂) := by
  unfold Validator.checkPolicy
  rw [h.policy]
  split
  · exact h.succeed j.caller j.chain
  · split
    · exact h.checkRules st₂.policy.dataRules j _ nSteps
    · split
      all_goals grind [h.call, h.checkRules]

theorem reset (inRun : Bool) : Agree l₁ l₂ (reset P inRun st₁) (reset P inRun st₂) := by
  refine ⟨?_, ?_, ?_, h.pending, h.log⟩
  all_goals grind [reset, h.policy, h.cache, h.postedResets]

/-- Configurations that are loaded. -/
theorem load (s : ConfigSection) (filename : Text) (inRun : Bool) :
    Agree l₁ l₂ (load env P now s filename inRun st₁).1
      (load env P now s filename inRun st₂).1 := by
  have hr := h.reset (P := P) inRun
  unfold Validator.load
  dsimp only
  split
  · exact hr
  · rw [hr.policy]
    exact hr.withPolicy _

theorem requestOf_eq (id : ℕ) : st₁.requestOf id = st₂.requestOf id := by
  unfold State.requestOf
  rw [h.pending]

/-- A request that is over. -/
theorem dropRequest (id : ℕ) : Agree l₁ l₂ (st₁.dropRequest id) (st₂.dropRequest id) := by
  refine ⟨h.policy, h.cache, h.postedResets, ?_, h.log⟩
  unfold State.dropRequest
  rw [h.pending]

end Agree

theorem Agree.step (h : Agree l₁ l₂ st₁ st₂) (e : ℤ × Event) :
    Agree l₁ l₂ (step env P st₁ e) (step env P st₂ e) := by
  obtain ⟨now, e⟩ := e
  cases e with
  | validate id p => exact h.checkPolicy _ 0
  | answer id d =>
    simp only [Validator.step, h.requestOf_eq id]
    split
    · exact h
    · exact (h.dropRequest id).checkPolicy _ _
  | timeout id =>
    simp only [Validator.step, h.requestOf_eq id]
    split
    · exact h
    · unfold onTimeout
      split
      · exact (h.dropRequest id).addRequest _
      · exact (h.dropRequest id).call _ rfl
  | load s filename inRun => exact h.load s filename inRun
  | reset inRun => exact h.reset inRun
  | poll =>
    simp only [Validator.step, h.postedResets]
    split
    · exact ⟨h.policy, rfl, rfl, h.pending, h.log⟩
    · exact h
  | expire n => grind [h.withCache, Validator.step, h.cache]

theorem Agree.run (h : Agree l₁ l₂ st₁ st₂) (es : List (ℤ × Event)) :
    Agree l₁ l₂ (run env P st₁ es) (run env P st₂ es) := by
  induction es generalizing st₁ st₂ with
  | nil => exact h
  | cons e es ih => exact ih (h.step e)

/-! ### Histories that end with a load -/

/-- What happened to a validator before and after its last `load`: all earlier events, whether it
was called in the event loop, and the handlers for the cache that the loop has run since. -/
structure History where
  events : List (ℤ × Event)
  inRun : Bool
  polls : List ℤ

namespace History

variable (env P) (now : ℤ) (s : ConfigSection) (filename : Text)

/-- The state in which `load` is called. -/
def before (h : History) : State κ ρ :=
  run env P .init h.events

/-- The state that `load` leaves, and the error it throws. -/
def loaded (h : History) : State κ ρ × Option Error :=
  load env P now s filename h.inRun (h.before env P)

/-- The state in which packets are validated. -/
def after (h : History) : State κ ρ :=
  run env P (h.loaded env P now s filename).1 (h.polls.map fun t => (t, .poll))

/-- The event loop has run all handlers that clear the cache, if there is one. -/
def Settled (h : History) : Prop :=
  P.hasCache = true → (h.before env P).postedResets + (if h.inRun then 0 else 1) ≤ h.polls.length

end History

/-- All packets are decided alike, in whatever order they come and whatever the answers to the
requests for certificates are. -/
def SameDecisions (env : Env κ ρ) (P : Params) (st₁ st₂ : State κ ρ) : Prop :=
  ∀ es : List (ℤ × Event), decisions env P st₁ es = decisions env P st₂ es

/-- Without a cache there is nothing to reset. -/
theorem invariant_noCache (env : Env κ ρ) (hP : P.hasCache = false) :
    Invariant env P fun st => st.cache = [] ∧ st.postedResets = 0 where
  quiet now caller st st' h hst := by
    cases h with
    | insert c => exact ⟨by simp [insertCertificate, hP, hst.1], hst.2⟩
    | _ => exact hst
  validated now caller st hst := by
    obtain ⟨m, c, heq, -⟩ := onValidated_eq P now st caller
    rw [heq]
    exact hst
  dropRequest _ _ hst := hst
  retry _ _ hst := hst
  load now s filename inRun st hst := by
    unfold load
    split <;> simp [reset, hP, hst]
  reset inRun st hst := by simp [reset, hP, hst]
  poll st hst := ⟨rfl, by simp [hst.2]⟩
  expire n st hst := ⟨by simp [hst.1], hst.2⟩

/-- Polls only reset the cache. -/
theorem run_polls (env : Env κ ρ) (P : Params) (st : State κ ρ) (ts : List ℤ) :
    ∃ c, run env P st (ts.map fun t => (t, .poll)) =
        { st with cache := c, postedResets := st.postedResets - ts.length } ∧
      (c = st.cache ∨ c = []) ∧ (0 < st.postedResets → 0 < ts.length → c = []) := by
  induction ts generalizing st with
  | nil => exact ⟨st.cache, rfl, .inl rfl, fun _ h => absurd h (lt_irrefl 0)⟩
  | cons t ts ih =>
    have hcons : run env P st ((t :: ts).map fun t => (t, .poll)) =
        run env P (step env P st (t, .poll)) (ts.map fun t => (t, .poll)) := rfl
    by_cases hposted : 0 < st.postedResets
    · have hstep : step env P st (t, .poll) =
          { st with cache := [], postedResets := st.postedResets - 1 } := by
        simp [step, hposted]
      obtain ⟨c, heq, hc, -⟩ := ih (step env P st (t, .poll))
      grind
    · have hstep : step env P st (t, .poll) = st := by
        simp [step, hposted]
      obtain ⟨c, heq, hc, -⟩ := ih st
      refine ⟨c, ?_, hc, fun h => absurd h hposted⟩
      simp_all

section AfterLoad

variable (now) {s : ConfigSection} {filename : Text}

/-- The loaded policy is that of the file, but for the flag. -/
theorem loaded_policy (h : History) (hok : (h.loaded env P now s filename).2 = none) (c : Bool) :
    (h.after env P now s filename).policy.setFlag c =
        (loadSections env now filename s.children (.empty true)).1.setFlag c ∧
      (h.after env P now s filename).policy.shouldValidate =
        ((h.before env P).policy.shouldValidate && !hasAny s.children) ∧
      (loadSections env now filename s.children (.empty true)).2 = none := by
  obtain ⟨cache, hpolls, -⟩ := run_polls env P (h.loaded env P now s filename).1 h.polls
  have hflag := flagStep_loadSections env now filename s.children
  have hafter : (h.after env P now s filename).policy =
      (h.loaded env P now s filename).1.policy := by
    unfold History.after
    rw [hpolls]
  rw [hafter]
  unfold History.loaded load at hok ⊢
  dsimp only at hok ⊢
  split at hok
  · cases hok
  rename_i hne
  rw [if_neg hne]
  have hempty : (reset P h.inRun (h.before env P)).policy =
      (Policy.empty true).setFlag (h.before env P).policy.shouldValidate := rfl
  rw [hempty] at hok ⊢
  exact ⟨hflag.rest _ c _, hflag.flag _ hok, (hflag.error _ _).symm.trans hok⟩

/-- The cache is empty after a load. -/
theorem after_cache (h : History) (hsettled : h.Settled env P) :
    (h.after env P now s filename).cache = [] ∧
      (h.after env P now s filename).postedResets = 0 := by
  have hload : (h.loaded env P now s filename).1.cache =
        (reset P h.inRun (h.before env P)).cache ∧
      (h.loaded env P now s filename).1.postedResets =
        (reset P h.inRun (h.before env P)).postedResets := by
    unfold History.loaded load
    split <;> exact ⟨rfl, rfl⟩
  obtain ⟨c, hpolls, hc, hclear⟩ :=
    run_polls env P (h.loaded env P now s filename).1 h.polls
  unfold History.after
  rw [hpolls]
  rw [hload.1] at hc
  rw [hload.2] at hclear ⊢
  by_cases hP : P.hasCache = true
  · have hlen := hsettled hP
    grind [reset]
  rw [Bool.not_eq_true] at hP
  have hbefore : (h.before env P).cache = [] ∧ (h.before env P).postedResets = 0 := by
    exact (invariant_noCache env hP).run h.events ⟨rfl, rfl⟩
  simp [reset, hP, hbefore] at hc ⊢
  exact hc

/-- A load leaves the requests that are not answered yet. -/
theorem after_pending (h : History) :
    (h.after env P now s filename).pending = (h.before env P).pending := by
  obtain ⟨c, hpolls, -⟩ := run_polls env P (h.loaded env P now s filename).1 h.polls
  unfold History.after
  rw [hpolls]
  unfold History.loaded load
  split <;> rfl

end AfterLoad

/-! ### The flag -/

/-- A Data with a signature of a type that is not supported. -/
def unsupportedData : SignedData where
  name := []
  contentType := 0
  content := []
  signed := []
  signature := ⟨2, none, ⟨23, []⟩⟩

/-- No checker accepts a signature of an unsupported type. -/
theorem checkAll_unsupportedData (env : Env κ ρ) (cs : List (Checker κ ρ)) :
    (checkAll env (.data unsupportedData) cs).verdict = .invalid ∧
      ∀ f ∈ (checkAll env (.data unsupportedData) cs).failures, f.isTimestamp = false := by
  induction cs with
  | nil => simp [checkAll]
  | cons c cs ih =>
    have hone : (Checker.check env c (.data unsupportedData)).verdict = .invalid ∧
        ∀ f ∈ (Checker.check env c (.data unsupportedData)).failures, f.isTimestamp = false := by
      cases c with
      | customized sigType k =>
        simp only [Checker.check, checkWith, customizedCheck]
        split
        · simp [FailInfo.isTimestamp]
        · simp [unsupportedData, digestSha256, IsPublicKeyType, signatureSha256WithRsa,
            signatureSha256WithEcdsa, FailInfo.isTimestamp]
      | fixedSigner sigType signers =>
        simp only [Checker.check, checkWith, fixedSignerCheck]
        grind [FailInfo.isTimestamp, unsupportedData]
    grind [checkAll]

theorem failAll_eq (st : State κ ρ) (caller : Caller) (fs : List FailInfo) : st.failAll caller fs =
      { st with log := st.log ++ fs.map fun f => ⟨caller.id, caller.packet, .failed f⟩ } := by
  induction fs generalizing st with
  | nil => simp [State.failAll]
  | cons f fs ih =>
    have hcons : st.failAll caller (f :: fs) = (st.call caller (.failed f)).failAll caller fs := rfl
    rw [hcons, ih]
    simp [State.call]

/-- A validator with the flag rejects such a signature. -/
theorem decisions_validating (env : Env κ ρ) (P : Params) (now : ℤ) {st : State κ ρ}
    (hflag : st.policy.shouldValidate = true) (id : ℕ) :
    ∀ d ∈ decisions env P st [(now, .validate id (.data unsupportedData))], d.2 = .reject := by
  intro d hd
  have hcurrent : (⟨⟨id, .data unsupportedData, none⟩, []⟩ : Job).packet = .data unsupportedData :=
    rfl
  have hstep : run env P st [(now, .validate id (.data unsupportedData))] =
      checkRules env P now st.policy.dataRules ⟨⟨id, .data unsupportedData, none⟩, []⟩
        unsupportedData.signature 0 st := by
    simp [run, step, checkPolicy, hflag, Job.packet, Caller.current]
  unfold decisions at hd
  rw [hstep] at hd
  unfold checkRules at hd
  split at hd
  · simp [State.call, Entry.decision, Call.decision, FailInfo.isTimestamp] at hd
    rw [hd]
  rename_i rule hrule
  obtain ⟨hverdict, hfailures⟩ := checkAll_unsupportedData env rule.checkers
  rw [hcurrent] at hd
  simp only [hverdict, failAll_eq, drop_left', map_map, mem_map] at hd
  obtain ⟨f, hf, rfl⟩ := hd
  simp [Entry.decision, Call.decision, hfailures f hf]

/-- A validator without the flag accepts everything. -/
theorem decisions_notValidating {st : State κ ρ} (hflag : st.policy.shouldValidate = false)
    (id : ℕ) (p : Packet) : decisions env P st [(now, .validate id p)] = [(id, .accept)] := by
  have hstep : run env P st [(now, .validate id p)] = st.call ⟨id, p, none⟩ .validated := by
    simp [run, step, checkPolicy, hflag, State.succeed, State.onValidated]
  unfold decisions
  rw [hstep]
  simp [State.call, Entry.decision, Call.decision]

/-- The same decisions need the same flag. -/
theorem shouldValidate_eq_of_sameDecisions (h : SameDecisions env P st₁ st₂) :
    st₁.policy.shouldValidate = st₂.policy.shouldValidate := by
  have hsame := h [(0, .validate 0 (.data unsupportedData))]
  -- where one of them validates and the other does not, the unsupported Data tells them apart
  have hdiffer : ∀ st st' : State κ ρ, st.policy.shouldValidate = true →
      st'.policy.shouldValidate = false →
      decisions env P st [(0, .validate 0 (.data unsupportedData))] ≠
        decisions env P st' [(0, .validate 0 (.data unsupportedData))] := by
    intro st st' ht hf heq
    rw [decisions_notValidating hf] at heq
    have hreject := decisions_validating env P 0 ht 0 (0, .accept) (by
      rw [heq]
      exact mem_singleton_self _)
    cases hreject
  cases h₁ : st₁.policy.shouldValidate with
  | true => grind
  | false => grind

/-- States with the same configuration, cache and requests decide alike. -/
theorem sameDecisions_of_policy (hpolicy : st₁.policy = st₂.policy) (hcache : st₁.cache = st₂.cache)
    (hposted : st₁.postedResets = st₂.postedResets) (hpending : st₁.pending = st₂.pending) :
    SameDecisions env P st₁ st₂ := by
  intro es
  have hagree : Agree st₁.log st₂.log st₁ st₂ :=
    ⟨hpolicy, hcache, hposted, hpending, [], [], (append_nil _).symm, (append_nil _).symm, rfl⟩
  have hrun : Agree st₁.log st₂.log (run env P st₁ es) (run env P st₂ es) := hagree.run es
  obtain ⟨t₁, t₂, h₁, h₂, ht⟩ := hrun.log
  unfold decisions
  rw [h₁, h₂, drop_left', drop_left', ht] <;> rfl

/-- After two histories that end with a load of the same configuration, all packets are decided
alike if both validators had the flag `m_shouldValidate` alike before the load or the configuration
clears it, their caches have been cleared, and the same requests are outstanding.  If they decide
alike, the flags were as said. -/
theorem load_forgets_iff (env : Env κ ρ) (P : Params) (now : ℤ) (s : ConfigSection)
    (filename : Text) (h₁ h₂ : History) (hok₁ : (h₁.loaded env P now s filename).2 = none)
    (hok₂ : (h₂.loaded env P now s filename).2 = none) :
    (SameDecisions env P (h₁.after env P now s filename) (h₂.after env P now s filename) →
      (h₁.before env P).policy.shouldValidate = (h₂.before env P).policy.shouldValidate ∨
        hasAny s.children = true) ∧
    ((h₁.before env P).policy.shouldValidate = (h₂.before env P).policy.shouldValidate ∨
        hasAny s.children = true →
      h₁.Settled env P → h₂.Settled env P →
      (h₁.before env P).pending = (h₂.before env P).pending →
      SameDecisions env P (h₁.after env P now s filename) (h₂.after env P now s filename)) := by
  obtain ⟨-, hflag₁, -⟩ := loaded_policy now h₁ hok₁ true
  obtain ⟨-, hflag₂, -⟩ := loaded_policy now h₂ hok₂ true
  constructor
  · grind [shouldValidate_eq_of_sameDecisions]
  · intro hflags hsettled₁ hsettled₂ hpending
    grind [loaded_policy, setFlag_self, after_cache, after_pending, sameDecisions_of_policy]

/-- An environment in which every text is a certificate and every signature verifies. -/
def lenientEnv : Env ℕ Unit where
  parseName _ := some []
  compile _ _ := some ()
  matchName _ _ := true
  expand _ n := some n
  certFile _ _ _ := none
  certText _ := some ⟨[], 0⟩
  directory _ _ := ⟨[], false⟩
  absolute _ path := path
  lexicalCast _ := none
  sha256 _ := []
  verify _ _ _ := true
  decodeCertificate _ := .ok 0 0 (10 ^ 12)

/-- The default parameters, with a Face. -/
def defaultParams : Params :=
  ⟨true, false, 3000 * 10 ^ 6, 10, 1000, 3600 * 10 ^ 9⟩

/-- A configuration with one trust anchor, of type `any`. -/
def anyConfig : ConfigSection :=
  .mk [] [(Keyword.trustAnchor.text, .mk [] [(Keyword.type.text, .leaf Keyword.any.text)])]

/-- A configuration with one trust anchor, a certificate in a string. -/
def base64Config : ConfigSection :=
  .mk [] [(Keyword.trustAnchor.text, .mk [] [(Keyword.type.text, .leaf Keyword.base64.text),
    (Keyword.base64String.text, .leaf [])])]

/-- A configuration that is loaded after a reset. -/
theorem load_forgets_iff_base64 : SameDecisions lenientEnv defaultParams
      ((⟨[(0, .reset true)], true, []⟩ : History).after lenientEnv defaultParams 5 base64Config [])
      ((⟨[], true, []⟩ : History).after lenientEnv defaultParams 5 base64Config []) :=
  (load_forgets_iff lenientEnv defaultParams 5 base64Config [] ⟨[(0, .reset true)], true, []⟩
    ⟨[], true, []⟩ (by decide +kernel) (by decide +kernel)).2 (.inl rfl)
    (fun _ => by decide +kernel) (fun _ => by decide +kernel) rfl

/-- A configuration with the anchor in a string, and a rule that lets every key of a type sign
Data. -/
def configFor (k : Keyword) : ConfigSection :=
  .mk [] (base64Config.children ++ [(Keyword.rule.text, .mk [] [(Keyword.id.text, .leaf []),
    (Keyword.ruleFor.text, .leaf Keyword.data.text),
    (Keyword.checker.text, .mk [] [(Keyword.type.text, .leaf Keyword.customized.text),
      (Keyword.sigType.text, .leaf k.text),
      (Keyword.keyLocator.text, .mk [] [(Keyword.type.text, .leaf Keyword.name.text),
        (Keyword.regex.text, .leaf [])])])])])

/-- The rule for RSA keys. -/
def ruleConfig : ConfigSection :=
  configFor .rsaSha256

/-- A Data with a signature of a type, whose key locator is a name. -/
def dataSignedWith (type : ℕ) (name signer : Name) : SignedData where
  name := name
  contentType := contentTypeKey
  content := []
  signed := []
  signature := ⟨type, some (.name signer), ⟨23, []⟩⟩

/-- A Data with an RSA signature. -/
def dataSignedBy (name signer : Name) : SignedData :=
  dataSignedWith signatureSha256WithRsa name signer

/-- The name of a certificate, without its version. -/
def certName : Name :=
  [.generic keyString, .generic idString]

/-- The name of another certificate. -/
def otherCertName : Name :=
  .generic [1] :: certName

/-- Two histories decide differently: what each decides about later events. -/
def Differ (h₁ h₂ : History) (s : ConfigSection) (es : List (ℤ × Event))
    (d₁ d₂ : List (ℕ × Decision)) : Prop :=
  (h₁.loaded lenientEnv defaultParams 5 s []).2 = none ∧
    (h₂.loaded lenientEnv defaultParams 5 s []).2 = none ∧
    decisions lenientEnv defaultParams (h₁.after lenientEnv defaultParams 5 s []) es = d₁ ∧
    decisions lenientEnv defaultParams (h₂.after lenientEnv defaultParams 5 s []) es = d₂

instance (h₁ h₂ : History) (s : ConfigSection) (es : List (ℤ × Event))
    (d₁ d₂ : List (ℕ × Decision)) : Decidable (Differ h₁ h₂ s es d₁ d₂) :=
  inferInstanceAs (Decidable (_ ∧ _ ∧ _ ∧ _))

/-- A validator remembers, where a new one does not.  If it once had a configuration of type `any`,
it accepts a Data with a signature of an unsupported type.  If the load was made outside of the
event loop, it accepts a Data by a certificate that the new rule rejects and that is in the cache.
So it does if such a certificate waited for the certificate of its own signer during the load, as it
is not checked again when that comes. -/
theorem load_remembers :
    Differ ⟨[(0, .load anyConfig [] true)], true, []⟩ ⟨[], true, []⟩ base64Config
      [(6, .validate 1 (.data unsupportedData))] [(1, .accept)] [(1, .reject)] ∧
    Differ ⟨[(0, .load ruleConfig [] true), (1, .validate 1 (.data (dataSignedBy [] certName))),
          (2, .answer 1 (dataSignedBy (certName ++ [.generic [1]]) []))], false, []⟩
      ⟨[], true, []⟩ (configFor .ecdsaSha256)
      [(6, .validate 2 (.data (dataSignedWith signatureSha256WithEcdsa [] certName))),
        (7, .answer 2 (dataSignedBy (certName ++ [.generic [1]]) []))]
      [(2, .accept)] [(2, .reject)] ∧
    Differ ⟨[(0, .load (configFor .ecdsaSha256) [] true),
          (1, .validate 1 (.data (dataSignedWith signatureSha256WithEcdsa [] certName))),
          (2, .answer 1 (dataSignedWith signatureSha256WithEcdsa (certName ++ [.generic [1]])
            otherCertName))], true, []⟩
      ⟨[], true, []⟩ ruleConfig
      [(6, .answer 1 (dataSignedBy (otherCertName ++ [.generic [1]]) [])),
        (7, .validate 2 (.data (dataSignedBy [] certName))),
        (8, .answer 2 (dataSignedWith signatureSha256WithEcdsa (certName ++ [.generic [1]])
          otherCertName))]
      [(1, .accept), (2, .accept)] [(2, .reject)] := by
  decide +kernel

end Validator

end IcnDemo
