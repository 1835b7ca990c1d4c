import IcnDemo.Validator.Load
import IcnDemo.Validator.Timestamps

/-!
# Replayed commands

A signed Interest is accepted only with a timestamp newer than the last one of its key, or, when the
key is not in the table, with one within the grace interval.  So an accepted Interest cannot be
accepted again as long as its key stays in the table.  Removing a key forgets its timestamp, and
then the Interest is accepted a second time if it is still within the grace interval.

An accepted Interest is `Spent`: its key has a timestamp that is not older, or its own is out of the
grace interval for good.  This is kept by every event, provided that no key is removed too early.
-/

namespace IcnDemo.Validator

open List Security Conf

variable {κ ρ : Type} {env : Env κ ρ} {P : Params} {now : ℤ} {st : State κ ρ}

/-- The name of a signed Interest that was passed to `onValidated`. -/
def Entry.acceptedName (e : Entry) : Option Name :=
  match e.packet, e.call with
  | .interest n, .validated => some n
  | _, _ => none

/-- The names of the Interests passed to `onValidated`, in this order. -/
def State.accepted (st : State κ ρ) : List Name :=
  st.log.filterMap Entry.acceptedName

/-- The callback of an Interest is behind the check of its timestamp, that of a Data is not. -/
def Caller.Bound (caller : Caller) : Prop :=
  match caller.packet with
  | .data _ => caller.keyName = none
  | .interest n => ∃ sig key, signingKey n = .ok (sig, key) ∧ caller.keyName = some key

/-- The Interest cannot be accepted at `now` or later, as long as its key is not removed. -/
def Spent (P : Params) (now : ℤ) (m : LastTimestampMap) (n : Name) : Prop :=
  ∃ sig key time, signingKey n = .ok (sig, key) ∧ interestTime n = some time ∧
    ((∃ last, m.find key = some last ∧ time ≤ last) ∨ m.find key = none ∧ time + P.grace < now)

/-- Later, the Interest is still spent. -/
theorem Spent.mono {m : LastTimestampMap} {n : Name} (h : Spent P now m n) {now' : ℤ}
    (hle : now ≤ now') : Spent P now' m n := by
  obtain ⟨sig, key, time, hkey, htime, h⟩ := h
  exact ⟨sig, key, time, hkey, htime, h.imp_right fun h => ⟨h.1, by omega⟩⟩

/-- What a new key would push out of the table is out of the grace interval. -/
def SafeTable (P : Params) (now : ℤ) (m : LastTimestampMap) : Prop :=
  P.maxTrackedKeys ≤ m.length → ∀ e ∈ m, Removable P now m e → e.2 + P.grace < now

instance (m : LastTimestampMap) (e : Name × ℤ) : Decidable (Removable P now m e) :=
  inferInstanceAs (Decidable (_ ∨ _))

instance (m : LastTimestampMap) : Decidable (SafeTable P now m) :=
  inferInstanceAs (Decidable (_ → _))

/-- A spent Interest stays spent when another one is accepted. -/
theorem Spent.stamped {m m' : LastTimestampMap} {n interest keyName : Name} {time : ℤ}
    (h : Spent P now m n) (hst : Stamped P now interest keyName m m' time)
    (hsafe : SafeTable P now m) (hm : TableOk P m) : Spent P now m' n := by
  obtain ⟨sig, key, time₀, hkey, htime₀, h⟩ := h
  refine ⟨sig, key, time₀, hkey, htime₀, ?_⟩
  by_cases hsame : key = keyName
  · -- the new timestamp of the key is newer in either case
    subst hsame
    grind [hst.found, hst.fresh]
  rcases h with ⟨last, hlast, hle⟩ | ⟨hnone, hold⟩
  · rcases hst.others key last hsame hlast with hkept | ⟨hgone, hfull, hremovable⟩
    · exact .inl ⟨last, hkept, hle⟩
    · have hout := hsafe hfull _ (hm.sorted.find_eq_some_iff.mp hlast) hremovable
      exact .inr ⟨hgone, by dsimp only at hout; omega⟩
  · exact .inr ⟨hst.added key hsame hnone, hold⟩

/-- A spent Interest is not accepted. -/
theorem Spent.not_stamped {m m' : LastTimestampMap} {n key : Name} {sig : Signature} {time : ℤ}
    (h : Spent P now m n) (hkey : signingKey n = .ok (sig, key))
    (hst : Stamped P now n key m m' time) : False := by
  obtain ⟨sig', key', time', hkey', htime', h⟩ := h
  rw [hkey] at hkey'
  cases hkey'
  have htime := hst.decoded
  rw [htime'] at htime
  grind [hst.fresh]

/-! ### Runs -/

/-- What holds of a validator at a time up to which no key was removed too early. -/
structure ReplayInv (P : Params) (now : ℤ) (st : State κ ρ) : Prop where
  validates : st.policy.shouldValidate = true
  tableOk : TableOk P st.lastTimestamp
  bound : ∀ r ∈ st.pending, r.job.caller.Bound
  spent : ∀ n ∈ st.accepted, Spent P now st.lastTimestamp n
  nodup : st.accepted.Nodup

namespace ReplayInv

/-- Later, the invariant still holds. -/
theorem mono (h : ReplayInv P now st) {now' : ℤ} (hle : now ≤ now') : ReplayInv P now' st :=
  { h with spent := fun n hn => (h.spent n hn).mono hle }

/-- What is accepted after a callback. -/
theorem accepted_call (st : State κ ρ) (caller : Caller) (c : Call) : (st.call caller c).accepted =
      st.accepted ++ (Entry.acceptedName ⟨caller.id, caller.packet, c⟩).toList := by
  grind [State.accepted, State.call]

/-- A callback that accepts nothing. -/
theorem call (h : ReplayInv P now st) (caller : Caller) {c : Call} (hc : c ≠ .validated) :
    ReplayInv P now (st.call caller c) := by
  have hname : Entry.acceptedName ⟨caller.id, caller.packet, c⟩ = none := by
    grind [Entry.acceptedName]
  have haccepted : (st.call caller c).accepted = st.accepted := by
    rw [accepted_call, hname, Option.toList_none, append_nil]
  refine ⟨h.validates, h.tableOk, h.bound, ?_, ?_⟩
  · rw [haccepted]
    exact h.spent
  · rw [haccepted]
    exact h.nodup

theorem addRequest (h : ReplayInv P now st) {r : Request} (hr : r.job.caller.Bound) :
    ReplayInv P now { st with pending := st.pending ++ [r] } := by
  refine { h with bound := fun r' hr' => ?_ }
  grind [h.bound]

variable {caller : Caller}

section

variable (h : ReplayInv P now st) (hcaller : caller.Bound)

include h hcaller

theorem quiet {st' : State κ ρ} (hq : Quiet env P now caller st st') :
    ReplayInv P now st' ∧ st'.lastTimestamp = st.lastTimestamp := by
  cases hq with
  | fail f | throw e => exact ⟨h.call caller (by simp), rfl⟩
  | refresh =>
    refine ⟨⟨?_, h.tableOk, h.bound, h.spent, h.nodup⟩, rfl⟩
    grind [refreshAnchors, h.validates]
  | insert c => exact ⟨⟨h.validates, h.tableOk, h.bound, h.spent, h.nodup⟩, rfl⟩
  | request r hr => exact ⟨h.addRequest (hr ▸ hcaller), rfl⟩

theorem onValidated
    (hsafe : SafeTable P now st.lastTimestamp) : ReplayInv P now (st.onValidated P now caller) := by
  cases hpacket : caller.packet with
  | data d =>
    have hkey : caller.keyName = none := by simpa [Caller.Bound, hpacket] using hcaller
    have hname : Entry.acceptedName ⟨caller.id, caller.packet, .validated⟩ = none := by
      simp [Entry.acceptedName, hpacket]
    have haccepted : (st.call caller .validated).accepted = st.accepted := by
      rw [accepted_call, hname, Option.toList_none, append_nil]
    simp only [State.onValidated, hkey]
    refine ⟨h.validates, h.tableOk, h.bound, ?_, ?_⟩
    · rw [haccepted]
      exact h.spent
    · rw [haccepted]
      exact h.nodup
  | interest n =>
    obtain ⟨sig, key, hsigning, hkey⟩ : ∃ sig key, signingKey n = .ok (sig, key) ∧
        caller.keyName = some key := by simpa [Caller.Bound, hpacket] using hcaller
    simp only [State.onValidated, hkey, hpacket, Packet.name]
    split
    · exact h.call caller (by simp)
    · exact h.call caller (by simp)
    · rename_i m hm
      obtain ⟨time, hst⟩ := stamped_of_accepted h.tableOk hm
      have hnew : n ∉ st.accepted := fun hn => (h.spent n hn).not_stamped hsigning hst
      have hname : Entry.acceptedName ⟨caller.id, caller.packet, .validated⟩ = some n := by
        simp [Entry.acceptedName, hpacket]
      have haccepted : ({ st with lastTimestamp := m }.call caller .validated).accepted =
          st.accepted ++ [n] := by
        rw [accepted_call, hname]
        rfl
      refine ⟨h.validates, hst.tableOk, h.bound, fun n' hn' => ?_, ?_⟩
      · rw [haccepted] at hn'
        rcases mem_append.mp hn' with hn' | hn'
        · exact (h.spent n' hn').stamped hst hsafe h.tableOk
        · rw [mem_singleton.mp hn']
          exact ⟨sig, key, time, hsigning, hst.decoded, .inl ⟨time, hst.found, le_rfl⟩⟩
      rw [haccepted]
      exact nodup_append.mpr ⟨h.nodup, nodup_singleton n, fun a ha b hb => by
        rw [mem_singleton.mp hb]
        rintro rfl
        exact hnew ha⟩

theorem acts (hsafe : SafeTable P now st.lastTimestamp) {st' : State κ ρ}
    (hacts : Acts env P now caller st st') : ReplayInv P now st' := by
  obtain ⟨s, hquiet, hlast⟩ := hacts
  have hs : ReplayInv P now s ∧ s.lastTimestamp = st.lastTimestamp :=
    keeps_of_quiet (I := fun s => ReplayInv P now s ∧ s.lastTimestamp = st.lastTimestamp)
      (fun s s' hq hs => ⟨(hs.1.quiet hcaller hq).1, ((hs.1.quiet hcaller hq).2).trans hs.2⟩)
      hquiet ⟨h, rfl⟩
  rcases hlast with hlast | hlast
  · rw [hlast]
    exact hs.1
  · rw [hlast]
    exact hs.1.onValidated hcaller (hs.2 ▸ hsafe)

end

/-- A packet is validated for a caller whose callback is as it should be: a new one, or one that
waits for a certificate. -/
theorem checkPolicy (h : ReplayInv P now st) {j : Job} (nSteps : ℕ)
    (hj : j.caller.Bound ∧ (∃ d, j.packet = .data d) ∨
      j.packet = j.caller.packet ∧ j.caller.keyName = none)
    (hsafe : SafeTable P now st.lastTimestamp) :
    ReplayInv P now (checkPolicy env P now j nSteps st) := by
  obtain ⟨f, hf⟩ | ⟨caller, hbound, hacts⟩ := acts_checkPolicy env P now j nSteps st
  · rw [hf]
    exact h.call j.caller (by simp)
  · refine h.acts ?_ hsafe hacts
    rcases hbound with ⟨rfl, hdata⟩ | ⟨n, sig, key, hn, hkey, rfl⟩
    all_goals grind [h.validates, Caller.Bound]

end ReplayInv

/-- A step in which no key is removed too early. -/
def Safe (P : Params) (st : State κ ρ) (e : ℤ × Event) : Prop :=
  match e.2 with
  | .validate _ _ | .answer _ _ => SafeTable P e.1 st.lastTimestamp
  | _ => True

/-- A run in which no key is removed too early. -/
def SafeRun (env : Env κ ρ) (P : Params) (st : State κ ρ) (es : List (ℤ × Event)) : Prop :=
  Runs.Along (step env P) (Safe P) st es

/-- The event does not load a configuration with a trust anchor of type `any`. -/
def Event.NoAny : Event → Prop
  | .load s _ _ => hasAny s.children = false
  | _ => True

/-- Without an anchor of type `any` the flag stays. -/
theorem shouldValidate_load (env : Env κ ρ) (P : Params) (now : ℤ) (inRun : Bool)
    (s : ConfigSection) (filename : Text) (st : State κ ρ) (hany : hasAny s.children = false) :
    (load env P now s filename inRun st).1.policy.shouldValidate = st.policy.shouldValidate := by
  unfold load
  dsimp only
  split
  · rfl
  · exact (flagStep_loadSections env now filename s.children).keep hany _

/-- A safe event keeps the invariant. -/
theorem ReplayInv.step (h : ReplayInv P now st) {e : ℤ × Event} (hle : now ≤ e.1)
    (hsafe : Safe P st e) (hany : e.2.NoAny) : ReplayInv P e.1 (step env P st e) := by
  obtain ⟨now', e⟩ := e
  have h' : ReplayInv P now' st := h.mono hle
  have hdrop : ∀ id, ReplayInv P now' (st.dropRequest id) := fun id =>
    { h' with bound := fun r hr => h'.bound r (mem_of_mem_eraseP hr) }
  cases e with
  | validate id p => exact h'.checkPolicy 0 (.inr ⟨rfl, rfl⟩) hsafe
  | answer id d =>
    simp only [Validator.step]
    split
    · exact h'
    · rename_i r hr
      have hbound := h'.bound r (mem_of_find?_eq_some hr)
      exact (hdrop id).checkPolicy r.nSteps (.inl ⟨hbound, d, rfl⟩) hsafe
  | timeout id =>
    simp only [Validator.step]
    split
    · exact h'
    rename_i r hr
    have hbound := h'.bound r (mem_of_find?_eq_some hr)
    unfold onTimeout
    split
    · exact (hdrop id).addRequest hbound
    · exact (hdrop id).call r.job.caller (by simp)
  | load s filename inRun =>
    have hflag := shouldValidate_load env P now' inRun s filename st hany
    have hrest : (load env P now' s filename inRun st).1.lastTimestamp = st.lastTimestamp ∧
        (load env P now' s filename inRun st).1.pending = st.pending ∧
        (load env P now' s filename inRun st).1.log = st.log := by
      unfold load
      dsimp only
      split <;> exact ⟨rfl, rfl, rfl⟩
    obtain ⟨htable, hpending, hlog⟩ := hrest
    have haccepted : (load env P now' s filename inRun st).1.accepted = st.accepted := by
      unfold State.accepted
      rw [hlog]
    refine ⟨hflag.trans h'.validates, ?_, ?_, ?_, ?_⟩
    · exact htable ▸ h'.tableOk
    · exact fun r hr => h'.bound r (hpending ▸ hr)
    · intro n hn
      exact htable ▸ h'.spent n (haccepted ▸ hn)
    · exact haccepted ▸ h'.nodup
  | reset inRun => exact ⟨h'.validates, h'.tableOk, h'.bound, h'.spent, h'.nodup⟩
  | poll =>
    simp only [Validator.step]
    split
    · exact ⟨h'.validates, h'.tableOk, h'.bound, h'.spent, h'.nodup⟩
    · exact h'
  | expire n => exact ⟨h'.validates, h'.tableOk, h'.bound, h'.spent, h'.nodup⟩

/-- In a safe run nothing is accepted twice. -/
theorem ReplayInv.run {es : List (ℤ × Event)} (h : ReplayInv P now st) (hle : ∀ e ∈ es, now ≤ e.1)
    (hclock : es.Pairwise fun a b => a.1 ≤ b.1) (hany : ∀ e ∈ es, e.2.NoAny)
    (hsafe : SafeRun env P st es) : (run env P st es).accepted.Nodup := by
  induction es generalizing st now with
  | nil => exact h.nodup
  | cons e es ih =>
    obtain ⟨hfirst, hclock⟩ := pairwise_cons.mp hclock
    exact ih (h.step (hle e mem_cons_self) hsafe.1 (hany e mem_cons_self)) hfirst hclock
      (fun e' he' => hany e' (mem_cons_of_mem e he')) hsafe.2

/-- Nothing was accepted at the beginning. -/
theorem replayInv_init (P : Params) (now : ℤ) : ReplayInv P now (State.init : State κ ρ) where
  validates := rfl
  tableOk := tableOk_nil
  bound _ hr := absurd hr not_mem_nil
  spent _ hn := absurd hn not_mem_nil
  nodup := nodup_nil

/-- In a run of a validator that does validate, with a clock that does not go back, no name is
passed to `onValidated` twice, provided that no key is removed from the table of timestamps while
its last timestamp is within the grace interval. -/
theorem accepted_nodup_of_safeRun (env : Env κ ρ) (P : Params) (es : List (ℤ × Event))
    (hclock : es.Pairwise fun a b => a.1 ≤ b.1) (hany : ∀ e ∈ es, e.2.NoAny)
    (hsafe : SafeRun env P .init es) :
    ∀ es', es' <+: es → (run env P .init es').accepted.Nodup := by
  intro es' hp
  have hany' : ∀ e ∈ es', e.2.NoAny := fun e he => hany e (hp.subset he)
  have hclock' := hclock.sublist hp.sublist
  have hsafe' : SafeRun env P .init es' := hsafe.of_prefix hp
  cases es' with
  | nil => exact nodup_nil
  | cons e rest =>
    refine (replayInv_init P e.1).run (fun e' he' => ?_) hclock' hany' hsafe'
    grind [pairwise_cons]

instance : DecidablePred Event.NoAny := fun e =>
  match e with
  | .load s _ _ => inferInstanceAs (Decidable (hasAny s.children = false))
  | .validate _ _ | .answer _ _ | .timeout _ | .reset _ | .poll | .expire _ => .isTrue trivial

instance (e : ℤ × Event) : Decidable (Safe P st e) :=
  match e with
  | (now, .validate _ _) | (now, .answer _ _) =>
    inferInstanceAs (Decidable (SafeTable P now st.lastTimestamp))
  | (_, .load _ _ _) | (_, .timeout _) | (_, .reset _) | (_, .poll) | (_, .expire _) =>
    .isTrue trivial

instance (env : Env κ ρ) (P : Params) (st : State κ ρ) (es : List (ℤ × Event)) :
    Decidable (SafeRun env P st es) :=
  Runs.decidableAlong es st

/-- The name of the certificate of signer `b`, without its version. -/
def signerName (b : UInt8) : Name :=
  [.generic [b], .generic keyString, .generic idString]

/-- An environment in which a text of one letter is the certificate of that signer. -/
def letterEnv : Env ℕ Unit :=
  { lenientEnv with
    certText := fun t => match t with
      | [c] => some ⟨signerName (UInt8.ofNat c.toNat) ++ [.generic []], 0⟩
      | _ => none }

/-- Anchors for the signers `a` and `b`, and a rule that lets every RSA key sign Interests. -/
def commandConfig : ConfigSection :=
  .mk [] [(Keyword.trustAnchor.text, .mk [] [(Keyword.type.text, .leaf Keyword.base64.text),
      (Keyword.base64String.text, .leaf ['a'])]),
    (Keyword.trustAnchor.text, .mk [] [(Keyword.type.text, .leaf Keyword.base64.text),
      (Keyword.base64String.text, .leaf ['b'])]),
    (Keyword.rule.text, .mk [] [(Keyword.id.text, .leaf []),
      (Keyword.ruleFor.text, .leaf Keyword.interest.text),
      (Keyword.checker.text, .mk [] [(Keyword.type.text, .leaf Keyword.customized.text),
        (Keyword.sigType.text, .leaf Keyword.rsaSha256.text),
        (Keyword.keyLocator.text, .mk [] [(Keyword.type.text, .leaf Keyword.name.text),
          (Keyword.regex.text, .leaf [])])])])]

/-- A command with a timestamp in milliseconds, signed by `b`. -/
def command (b ms : UInt8) : Name :=
  [.generic [ms], .generic [],
    .generic (Tlv.encodeElement Tlv.signatureInfo
      (Tlv.encodeElement Tlv.signatureType [1] ++
        Tlv.encodeElement Tlv.keyLocator (signerName b).wire)),
    .generic (Tlv.encodeElement 23 [])]

/-- A command of one signer, a command of another one, and the first again. -/
def replayEvents : List (ℤ × Event) :=
  [(0, .load commandConfig [] true), (10000000, .validate 1 (.interest (command 97 10))),
    (10000001, .validate 2 (.interest (command 98 10))),
    (10000002, .validate 3 (.interest (command 97 10)))]

/-- A run in which commands are replayed. -/
theorem accepted_nodup_of_safeRun_replayEvents :
    (run letterEnv defaultParams .init replayEvents).accepted = [command 97 10, command 98 10] ∧
      (run letterEnv defaultParams .init replayEvents).accepted.Nodup :=
  ⟨by decide +kernel, accepted_nodup_of_safeRun letterEnv defaultParams replayEvents
    (by decide +kernel) (by decide +kernel) (by decide +kernel) replayEvents (prefix_refl _)⟩

/-- A validator that tracks one key accepts the first command twice, within two nanoseconds. -/
theorem replay_accepted_after_eviction : (∀ e ∈ replayEvents, e.2.NoAny) ∧
      (run letterEnv { defaultParams with maxTrackedKeys := 1 } .init replayEvents).accepted =
        [command 97 10, command 98 10, command 97 10] := by
  decide +kernel

end IcnDemo.Validator
