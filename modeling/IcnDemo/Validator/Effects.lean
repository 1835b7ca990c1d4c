import IcnDemo.Validator.Defs

/-!
# What the validation of a packet can do

Whatever path `checkPolicy` takes, it is a sequence of a few acts on behalf of one caller: a failure
is reported or an exception leaves, the anchors are refreshed, a certificate is put in the cache, or
one is requested; and at its end `onValidated` may be called.  A property of states that every act
keeps is kept by every event, and so it holds along a whole run.
-/

namespace IcnDemo.Validator

open Security Conf

variable {κ ρ : Type} {env : Env κ ρ} {P : Params} {now : ℤ} {caller : Caller}

/-- One act of the validator on behalf of a caller that does not call `onValidated`. -/
inductive Quiet (env : Env κ ρ) (P : Params) (now : ℤ) (caller : Caller) :
    State κ ρ → State κ ρ → Prop where
  | fail (st : State κ ρ) (f : FailInfo) : Quiet env P now caller st (st.call caller (.failed f))
  | throw (st : State κ ρ) (e : Exn) : Quiet env P now caller st (st.call caller (.thrown e))
  | refresh (st : State κ ρ) :
    Quiet env P now caller st { st with policy := (refreshAnchors env now st.policy).1 }
  | insert (st : State κ ρ) (c : Cert κ) :
    Quiet env P now caller st { st with cache := insertCertificate P c st.cache }
  | request (st : State κ ρ) (r : Request) (hr : r.job.caller = caller) :
    Quiet env P now caller st { st with pending := st.pending ++ [r] }

/-- A sequence of acts, at the end of which `onValidated` may be called. -/
def Acts (env : Env κ ρ) (P : Params) (now : ℤ) (caller : Caller) (st st' : State κ ρ) : Prop :=
  ∃ s, Relation.ReflTransGen (Quiet env P now caller) st s ∧
    (st' = s ∨ st' = s.onValidated P now caller)

namespace Acts

theorem single {st st' : State κ ρ} (h : Quiet env P now caller st st') :
    Acts env P now caller st st' :=
  ⟨st', .single h, .inl rfl⟩

theorem validated (st : State κ ρ) : Acts env P now caller st (st.onValidated P now caller) :=
  ⟨st, .refl, .inr rfl⟩

theorem head {st s st' : State κ ρ} (h : Quiet env P now caller st s)
    (h' : Acts env P now caller s st') : Acts env P now caller st st' := by
  obtain ⟨t, hquiet, hlast⟩ := h'
  exact ⟨t, .head h hquiet, hlast⟩

theorem after_failAll (st : State κ ρ) (fs : List FailInfo) {st' : State κ ρ}
    (h : Acts env P now caller (st.failAll caller fs) st') : Acts env P now caller st st' := by
  induction fs generalizing st with
  | nil => exact h
  | cons f fs ih => exact head (.fail st f) (ih _ h)

end Acts

/-- A chain of certificates that was verified. -/
theorem acts_succeed (st : State κ ρ) (chain : List SignedData) :
    Acts env P now caller st (st.succeed env P now caller chain) := by
  induction chain generalizing st with
  | nil => exact .validated st
  | cons d chain ih =>
    unfold State.succeed
    split
    · rename_i c hc
      -- an error of `certificateOf` is one of the two kinds of calls
      unfold certificateOf at hc
      split at hc
      · cases hc
        exact .single (.fail st _)
      split at hc
      · cases hc
        exact .single (.fail st _)
      · cases hc
        exact .single (.throw st _)
      · split at hc
        · cases hc
          exact .single (.fail st _)
        · split at hc
          · cases hc
          · cases hc
            exact .single (.fail st _)
    · rename_i cert hcert
      refine .head (.insert st cert) ?_
      dsimp only
      split
      · exact ih _
      · exact .single (.fail _ _)

/-- A certificate that is fetched. -/
theorem acts_fetch (st : State κ ρ) (j : Job) (n : Name) (nSteps : ℕ) :
    Acts env P now j.caller st (st.fetch P j n nSteps) := by
  unfold State.fetch
  split
  · exact .single (.fail st _)
  · split
    · exact .single (.request st ⟨j, n, 1, nSteps + 1⟩ rfl)
    · exact .single (.fail st _)

/-- A signature that is checked with a key. -/
theorem acts_checkKeySignature (j : Job) (sig : Signature) (n : Name) (nSteps : ℕ)
    (st : State κ ρ) :
    Acts env P now j.caller st (checkKeySignature env P now j sig n nSteps st) := by
  unfold checkKeySignature
  refine .head (.refresh st) ?_
  dsimp only
  split
  · exact .single (.throw _ _)
  split
  · exact .single (.throw _ _)
  · exact acts_fetch _ j n nSteps
  · split
    · exact acts_succeed _ j.chain
    · exact .single (.fail _ _)

/-- A signature that is checked. -/
theorem acts_checkSignature (j : Job) (sig : Signature) (nSteps : ℕ) (st : State κ ρ) :
    Acts env P now j.caller st (checkSignature env P now j sig nSteps st) := by
  unfold checkSignature
  split
  · split
    · exact acts_succeed st j.chain
    · exact .single (.fail st _)
  split
  · split
    · exact .single (.fail st _)
    · split
      · exact .single (.fail st _)
      · exact acts_checkKeySignature j sig _ nSteps st
  · exact .single (.fail st _)

/-- Rules that are checked. -/
theorem acts_checkRules (rules : List (Rule κ ρ)) (j : Job) (sig : Signature) (nSteps : ℕ)
    (st : State κ ρ) : Acts env P now j.caller st (checkRules env P now rules j sig nSteps st) := by
  unfold checkRules
  split
  · exact .single (.fail st _)
  rename_i rule hrule
  refine .after_failAll st (checkAll env j.packet rule.checkers).failures ?_
  dsimp only
  split
  · exact ⟨_, .refl, .inl rfl⟩
  · exact acts_succeed _ j.chain
  · exact acts_checkSignature j sig nSteps _
  · exact .single (.throw _ _)

/-- The caller that a packet is validated for: an Interest is bound to the name of its key when the
validator does validate. -/
def BoundTo (shouldValidate : Bool) (j : Job) (caller : Caller) : Prop :=
  (caller = j.caller ∧ (shouldValidate = true → ∃ d, j.packet = .data d)) ∨
    ∃ n sig keyName, j.packet = .interest n ∧ signingKey n = .ok (sig, keyName) ∧
      caller = { j.caller with keyName := some keyName }

/-- The validation of a packet is a sequence of acts for its caller, unless it is an Interest that
does not tell its key. -/
theorem acts_checkPolicy (env : Env κ ρ) (P : Params) (now : ℤ) (j : Job) (nSteps : ℕ)
    (st : State κ ρ) :
    (∃ f, checkPolicy env P now j nSteps st = st.call j.caller (.failed f)) ∨
      ∃ caller, BoundTo st.policy.shouldValidate j caller ∧
        Acts env P now caller st (checkPolicy env P now j nSteps st) := by
  unfold checkPolicy
  split
  · rename_i hflag
    refine .inr ⟨j.caller, .inl ⟨rfl, fun h => ?_⟩, acts_succeed st j.chain⟩
    rw [hflag] at h
    cases h
  split
  · rename_i d hd
    exact .inr ⟨j.caller, .inl ⟨rfl, fun _ => ⟨d, hd⟩⟩, acts_checkRules _ j _ nSteps st⟩
  rename_i n hn
  split
  · rename_i f hf
    exact .inl ⟨f, rfl⟩
  · rename_i sig keyName hkey
    exact .inr ⟨_, .inr ⟨n, sig, keyName, hn, hkey, rfl⟩,
      acts_checkRules _ { j with caller := { j.caller with keyName := some keyName } } sig
        nSteps st⟩

/-- What quiet steps keep, many of them keep. -/
theorem keeps_of_quiet {I : State κ ρ → Prop} {st st' : State κ ρ}
    (hquiet : ∀ s s', Quiet env P now caller s s' → I s → I s')
    (h : Relation.ReflTransGen (Quiet env P now caller) st st') (hI : I st) : I st' := by
  induction h with
  | refl => exact hI
  | tail _ hlast ih => exact hquiet _ _ hlast ih

section Invariants

variable (env P)

/-- A property of states that nothing a validator does can break. -/
structure Invariant (I : State κ ρ → Prop) : Prop where
  quiet : ∀ now caller st st', Quiet env P now caller st st' → I st → I st'
  validated : ∀ now caller st, I st → I (st.onValidated P now caller)
  dropRequest : ∀ id st, I st → I (st.dropRequest id)
  retry : ∀ (r : Request) (st : State κ ρ), I st → I { st with pending := st.pending ++ [r] }
  load : ∀ now s filename inRun st, I st → I (load env P now s filename inRun st).1
  reset : ∀ inRun st, I st → I (reset P inRun st)
  poll : ∀ st : State κ ρ, I st → I { st with cache := [], postedResets := st.postedResets - 1 }
  expire : ∀ (n : Name) (st : State κ ρ), I st →
    I { st with cache := st.cache.filter fun c => c.index ≠ n }

end Invariants

namespace Invariant

variable {I : State κ ρ → Prop} {st : State κ ρ}

/-- An invariant after a check. -/
theorem checkPolicy (hI : Invariant env P I) (j : Job) (nSteps : ℕ) (h : I st) :
    I (checkPolicy env P now j nSteps st) := by
  obtain ⟨f, hf⟩ | ⟨caller, -, hacts⟩ := acts_checkPolicy env P now j nSteps st
  · rw [hf]
    exact hI.quiet now j.caller _ _ (.fail st f) h
  · obtain ⟨s, hquiet, hlast⟩ := hacts
    have hs : I s := keeps_of_quiet (hI.quiet now caller) hquiet h
    grind [hI.validated]

/-- An invariant after an event. -/
theorem step (hI : Invariant env P I) (e : ℤ × Event) (h : I st) : I (step env P st e) := by
  obtain ⟨now, e⟩ := e
  cases e with
  | validate id p => exact hI.checkPolicy _ 0 h
  | answer id d =>
    simp only [Validator.step]
    split
    · exact h
    · exact hI.checkPolicy _ _ (hI.dropRequest id st h)
  | timeout id =>
    simp only [Validator.step]
    split
    · exact h
    rename_i r hr
    unfold onTimeout
    split
    · exact hI.retry _ _ (hI.dropRequest id st h)
    · exact hI.quiet now r.job.caller _ _ (.fail _ _) (hI.dropRequest id st h)
  | load s filename inRun => exact hI.load now s filename inRun st h
  | reset inRun => exact hI.reset inRun st h
  | poll =>
    simp only [Validator.step]
    split
    · exact hI.poll st h
    · exact h
  | expire n => exact hI.expire n st h

/-- An invariant after a run. -/
theorem run (hI : Invariant env P I) (es : List (ℤ × Event)) (h : I st) : I (run env P st es) := by
  induction es generalizing st with
  | nil => exact h
  | cons e es ih => exact ih (hI.step e h)

end Invariant

end IcnDemo.Validator
