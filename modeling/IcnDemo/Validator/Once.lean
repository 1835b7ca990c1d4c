import IcnDemo.Validator.Load
import IcnDemo.Validator.Orderly

/-!
# One callback for each call

For every call of `validate`, the callbacks of the caller and the requests for certificates made on
its behalf are counted.  As long as every packet comes to exactly one end, the two numbers add up to
the number of calls.  A request does not last: every answer leads to the next of a bounded number of
steps, and a timeout uses up the one retry.
-/

namespace IcnDemo.Validator

open List Security Conf

variable {κ ρ : Type} {env : Env κ ρ} {P : Params} {st : State κ ρ}

/-! ### Counting -/

/-- How often the callbacks of call `id` were called, or an exception left instead. -/
def State.callbacks (st : State κ ρ) (id : ℕ) : ℕ :=
  st.log.countP fun e => e.id == id

/-- The requests on behalf of call `id`. -/
def State.outstanding (st : State κ ρ) (id : ℕ) : ℕ :=
  st.pending.countP fun r => r.job.caller.id == id

/-- Whether an event is the given call. -/
def Event.isCall (id : ℕ) : Event → Bool
  | .validate id' _ => id' == id
  | _ => false

/-- How often `validate` was called with this number. -/
def calls (es : List (ℤ × Event)) (id : ℕ) : ℕ :=
  es.countP fun e => e.2.isCall id

/-- Every call has led to its number of callbacks and requests, and no exception has left. -/
structure Balanced (n : ℕ → ℕ) (st : State κ ρ) : Prop where
  count : ∀ id, st.callbacks id + st.outstanding id = n id
  noException : ∀ e ∈ st.log, e.call.isThrown = false

/-- Each call of `validate` has been answered by one callback, or waits for one certificate. -/
def CalledOnce (es : List (ℤ × Event)) (st : State κ ρ) : Prop :=
  Balanced (calls es) st

/-- Outcomes for a caller are added to a state. -/
structure Adds (caller : Caller) (st st' : State κ ρ) (os : List Outcome) : Prop where
  log : st'.log = st.log ++ os.filterMap (Outcome.asEntry caller)
  pending : st'.pending = st.pending ++ os.filterMap Outcome.request?
  own : ∀ r, Outcome.request r ∈ os → r.job.caller.id = caller.id

variable {caller : Caller} {st' : State κ ρ} {os : List Outcome}

/-- Outcomes are added. -/
theorem Emits.adds {nSteps : ℕ} (h : Emits P caller nSteps st st' os) : Adds caller st st' os :=
  ⟨h.log, h.pending, fun r hr => (h.requests r hr).1⟩

namespace Adds

/-- How many callbacks and requests there are. -/
theorem count (h : Adds caller st st' os) (id : ℕ) : st'.callbacks id + st'.outstanding id =
      st.callbacks id + st.outstanding id + if id = caller.id then os.length else 0 := by
  have hos : (os.filterMap (Outcome.asEntry caller)).countP (fun e => e.id == id) +
      (os.filterMap Outcome.request?).countP (fun r => r.job.caller.id == id) =
        if id = caller.id then os.length else 0 := by
    have hown := h.own
    clear h
    induction os with
    | nil => simp
    | cons o os ih =>
      have ih' := ih fun r hr => hown r (mem_cons_of_mem o hr)
      cases o with
      | call c =>
        by_cases hid : id = caller.id
        · simp [hid] at ih' ⊢
          omega
        · have hid' : caller.id ≠ id := fun h => hid h.symm
          simpa [hid, hid'] using ih'
      | request r =>
        have hr := hown r mem_cons_self
        by_cases hid : id = caller.id
        · simp [hid, hr] at ih' ⊢
          omega
        · have hid' : caller.id ≠ id := fun h => hid h.symm
          simpa [hid, hid', hr] using ih'
  grind [State.callbacks, State.outstanding, h.log, h.pending]

/-- Exceptions are among the outcomes. -/
theorem noException_iff (h : Adds caller st st' os) : (∀ e ∈ st'.log, e.call.isThrown = false) ↔
      (∀ e ∈ st.log, e.call.isThrown = false) ∧ ∀ o ∈ os, o.isThrown = false := by
  rw [h.log, forall_mem_append]
  refine and_congr_right fun _ => ?_
  constructor
  · intro hall o ho
    cases o with
    | call c =>
      exact hall ⟨caller.id, caller.packet, c⟩ (mem_filterMap.mpr ⟨.call c, ho, rfl⟩)
    | request r => rfl
  intro hall e he
  obtain ⟨o, ho, heq⟩ := mem_filterMap.mp he
  cases o with
  | call c =>
    cases heq
    exact hall (.call c) ho
  | request r => cases heq

/-- The balance is kept, with one more call of the caller, exactly if the packet came to one end. -/
theorem balanced_iff {n n' : ℕ → ℕ} (h : Adds caller st st' os) (hb : Balanced n st)
    (hn : ∀ id, n' id = n id + if id = caller.id then 1 else 0) : Balanced n' st' ↔ Single os := by
  constructor
  · intro hb'
    have hone : os.length = 1 := by
      have hcount := h.count caller.id
      rw [hb'.count, hb.count, hn] at hcount
      simp at hcount
      exact hcount.symm
    obtain ⟨o, rfl⟩ := length_eq_one_iff.mp hone
    exact ⟨o, rfl, (h.noException_iff.mp hb'.noException).2 o (mem_singleton_self o)⟩
  · rintro ⟨o, rfl, ho⟩
    refine ⟨fun id => ?_, h.noException_iff.mpr ⟨hb.noException, fun o' ho' => ?_⟩⟩
    all_goals grind [h.count, hb.count]

end Adds

/-! ### Steps -/

/-- The packet that an event gives to `checkPolicy` comes to exactly one end. -/
def Orderly (env : Env κ ρ) (P : Params) (st : State κ ρ) (e : ℤ × Event) : Prop :=
  match e.2 with
  | .validate id p => PolicyOk env P e.1 ⟨⟨id, p, none⟩, []⟩ st
  | .answer id d => ∀ r, st.requestOf id = some r →
      PolicyOk env P e.1 { r.job with chain := d :: r.job.chain } st
  | _ => True

/-- Every packet of a run does so. -/
def OrderlyRun (env : Env κ ρ) (P : Params) (st : State κ ρ) (es : List (ℤ × Event)) : Prop :=
  Runs.Along (step env P) (Orderly env P) st es

variable {id : ℕ} {es : List (ℤ × Event)} {r : Request}

/-- The request of a call. -/
theorem requestOf_spec (h : st.requestOf id = some r) : r ∈ st.pending ∧ r.job.caller.id = id :=
  ⟨mem_of_find?_eq_some h, by simpa using find?_some h⟩

/-- A request that is over. -/
theorem Balanced.dropRequest {n : ℕ → ℕ} (hb : Balanced n st) (h : st.requestOf id = some r) :
    ∃ n', Balanced n' (st.dropRequest id) ∧ ∀ id', n id' = n' id' + if id' = id then 1 else 0 := by
  have hcount : ∀ id', st.outstanding id' =
      (st.dropRequest id).outstanding id' + if id' = id then 1 else 0 := by
    intro id'
    obtain ⟨hmem, hid⟩ := requestOf_spec h
    obtain ⟨r', l₁, l₂, hl₁, hr', hpending, herase⟩ :=
      exists_of_eraseP (p := fun r : Request => r.job.caller.id == id) hmem (by simpa using hid)
    grind [State.outstanding, State.dropRequest]
  refine ⟨fun id' => st.callbacks id' + (st.dropRequest id).outstanding id', ⟨fun _ => rfl, ?_⟩, ?_⟩
  · exact hb.noException
  · intro id'
    dsimp only
    rw [← hb.count id', hcount id']
    omega

theorem calls_append_singleton (es : List (ℤ × Event)) (e : ℤ × Event) (id : ℕ) :
    calls (es ++ [e]) id = calls es id + if e.2.isCall id then 1 else 0 := by
  unfold calls
  rw [countP_append, countP_singleton]

/-- Another state with the same callbacks and requests. -/
theorem Balanced.of_eq {n n' : ℕ → ℕ} (hb : Balanced n st) (hlog : st'.log = st.log)
    (hpending : st'.pending = st.pending) (hn : ∀ id, n' id = n id) : Balanced n' st' := by
  refine ⟨fun id => ?_, hlog ▸ hb.noException⟩
  rw [hn, ← hb.count id]
  unfold State.callbacks State.outstanding
  rw [hlog, hpending]

/-- A load calls no callback. -/
theorem load_log_pending (env : Env κ ρ) (P : Params) (now : ℤ) (s : ConfigSection)
    (filename : Text) (inRun : Bool) (st : State κ ρ) :
    (load env P now s filename inRun st).1.log = st.log ∧
      (load env P now s filename inRun st).1.pending = st.pending := by
  unfold load
  split <;> exact ⟨rfl, rfl⟩

/-- A timeout has one outcome. -/
theorem onTimeout_adds (r : Request) (st : State κ ρ) :
    ∃ o : Outcome, o.isThrown = false ∧ Adds r.job.caller st (onTimeout r st) [o] ∧
      ∀ r', o = .request r' → r'.nSteps = r.nSteps ∧ r'.nRetries + 1 = r.nRetries := by
  unfold onTimeout
  by_cases hretry : 0 < r.nRetries
  · rw [if_pos hretry]
    refine ⟨.request { r with nRetries := r.nRetries - 1 }, rfl,
      ⟨(append_nil _).symm, rfl, fun r' hr' => ?_⟩, fun r' hr' => ?_⟩
    all_goals grind
  · rw [if_neg hretry]
    refine ⟨.call (.failed (.cannotFetch r.interest)), rfl,
      ⟨rfl, (append_nil _).symm, fun r' hr' => by simp at hr'⟩, fun r' hr' => ?_⟩
    cases hr'

/-- A step keeps the balance exactly if it is orderly. -/
theorem step_balanced_iff (env : Env κ ρ) (hm : TableOk P st.lastTimestamp) (hb : CalledOnce es st)
    (e : ℤ × Event) : CalledOnce (es ++ [e]) (step env P st e) ↔ Orderly env P st e := by
  obtain ⟨now, e⟩ := e
  have hsame : (∀ id, e.isCall id = false) → ∀ id, calls (es ++ [(now, e)]) id = calls es id := by
    intro he id
    rw [calls_append_singleton]
    simp [he]
  cases e with
  | validate id p =>
    obtain ⟨os, hos, hiff⟩ := checkPolicy_emits env now hm ⟨⟨id, p, none⟩, []⟩ 0
    refine (hos.adds.balanced_iff hb fun id' => ?_).trans hiff
    grind [calls_append_singleton, Event.isCall]
  | answer id d =>
    have hn := hsame fun _ => rfl
    unfold CalledOnce Orderly
    simp only [step]
    rcases hr : st.requestOf id with _ | r
    · refine iff_of_true (hb.of_eq rfl rfl hn) fun r h => ?_
      cases h
    obtain ⟨hmem, hid⟩ := requestOf_spec hr
    obtain ⟨n', hb', hn'⟩ := hb.dropRequest hr
    have hm' : TableOk P (st.dropRequest id).lastTimestamp := hm
    obtain ⟨os, hos, hiff⟩ := checkPolicy_emits env now hm'
      { r.job with chain := d :: r.job.chain } r.nSteps
    refine (hos.adds.balanced_iff hb' fun id' => ?_).trans (hiff.trans ?_)
    · rw [hn, hn', hid]
    constructor
    · intro h r' hr'
      cases hr'
      exact h
    · intro h
      exact h r rfl
  | timeout id =>
    have hn := hsame fun _ => rfl
    refine iff_of_true ?_ trivial
    simp only [step]
    rcases hr : st.requestOf id with _ | r
    · exact hb.of_eq rfl rfl hn
    obtain ⟨hmem, hid⟩ := requestOf_spec hr
    obtain ⟨n', hb', hn'⟩ := hb.dropRequest hr
    obtain ⟨o, ho, hadds, -⟩ := onTimeout_adds r (st.dropRequest id)
    refine (hadds.balanced_iff hb' fun id' => ?_).mpr ⟨o, rfl, ho⟩
    rw [hn, hn', hid]
  | load s filename inRun =>
    obtain ⟨hlog, hpending⟩ := load_log_pending env P now s filename inRun st
    exact iff_of_true (hb.of_eq hlog hpending (hsame fun _ => rfl)) trivial
  | reset inRun => exact iff_of_true (hb.of_eq rfl rfl (hsame fun _ => rfl)) trivial
  | poll =>
    refine iff_of_true ?_ trivial
    simp only [step]
    split
    · exact hb.of_eq rfl rfl (hsame fun _ => rfl)
    · exact hb.of_eq rfl rfl (hsame fun _ => rfl)
  | expire n => exact iff_of_true (hb.of_eq rfl rfl (hsame fun _ => rfl)) trivial

/-! ### Runs -/

/-- The timestamps stay in order. -/
theorem invariant_tableOk (env : Env κ ρ) (P : Params) :
    Invariant env P fun st => TableOk P st.lastTimestamp where
  quiet now caller st st' h hst := by
    cases h <;> exact hst
  validated now caller st hst := by
    unfold State.onValidated
    split
    · exact hst
    split
    · exact hst
    · exact hst
    · rename_i hm
      obtain ⟨time, hstamped⟩ := stamped_of_accepted hst hm
      exact hstamped.tableOk
  dropRequest _ _ hst := hst
  retry _ _ hst := hst
  load now s filename inRun st hst := by
    unfold load
    split <;> exact hst
  reset _ _ hst := hst
  poll _ hst := hst
  expire _ _ hst := hst

/-- A run keeps the balance exactly if it is orderly. -/
theorem calledOnce_run_iff (env : Env κ ρ) (es : List (ℤ × Event)) (hm : TableOk P st.lastTimestamp)
    {done : List (ℤ × Event)} (hb : CalledOnce done st) :
    (∀ es', es' <+: es → CalledOnce (done ++ es') (run env P st es')) ↔ OrderlyRun env P st es := by
  induction es generalizing st done with
  | nil =>
    refine iff_of_true (fun es' hp => ?_) trivial
    rw [prefix_nil.mp hp, append_nil]
    exact hb
  | cons e es ih =>
    have hstep := step_balanced_iff env hm hb e
    have hm' : TableOk P (step env P st e).lastTimestamp := (invariant_tableOk env P).step e hm
    constructor
    · intro hall
      have hfirst : CalledOnce (done ++ [e]) (step env P st e) :=
        hall [e] (cons_prefix_cons.mpr ⟨rfl, nil_prefix⟩)
      refine ⟨hstep.mp hfirst, (ih hm' hfirst).mp fun es' hp => ?_⟩
      rw [append_assoc]
      exact hall (e :: es') (cons_prefix_cons.mpr ⟨rfl, hp⟩)
    rintro ⟨horderly, hrest⟩ es' hp
    have hfirst := hstep.mpr horderly
    cases es' with
    | nil =>
      rw [append_nil]
      exact hb
    | cons e' es' =>
      obtain ⟨rfl, htail⟩ := cons_prefix_cons.mp hp
      have hlater := (ih hm' hfirst).mpr hrest es' htail
      rwa [append_assoc] at hlater

/-! ### Every request comes to an end -/

/-- How many more answers and timeouts a request can lead to. -/
def Request.remaining (P : Params) (r : Request) : ℕ :=
  2 * (P.stepLimit - r.nSteps) + r.nRetries + 1

/-- How many more answers and timeouts there can be for a call. -/
def State.remaining (P : Params) (st : State κ ρ) (id : ℕ) : ℕ :=
  ((st.pending.filter fun r => r.job.caller.id == id).map (Request.remaining P)).sum

/-- An answer to a request of the call, or its timeout. -/
def Event.isAnswer (id : ℕ) : Event → Bool
  | .answer id' _ => id' == id
  | .timeout id' => id' == id
  | _ => false

/-- How many answers a call gets. -/
def answers (es : List (ℤ × Event)) (id : ℕ) : ℕ :=
  es.countP fun e => e.2.isAnswer id

/-- Requests are made for steps that are allowed. -/
def WithinLimit (P : Params) (st : State κ ρ) : Prop :=
  ∀ r ∈ st.pending, r.nSteps ≤ P.stepLimit

/-- What remains after outcomes were added. -/
theorem Adds.remaining_eq (h : Adds caller st st' os) (P : Params) (id : ℕ) :
    st'.remaining P id = st.remaining P id +
      if id = caller.id then ((os.filterMap Outcome.request?).map (Request.remaining P)).sum
      else 0 := by
  have hown : ∀ r ∈ os.filterMap Outcome.request?, r.job.caller.id = caller.id := by
    intro r hr
    obtain ⟨o, ho, heq⟩ := mem_filterMap.mp hr
    cases o with
    | call c => cases heq
    | request r' =>
      cases heq
      exact h.own r ho
  unfold State.remaining
  rw [h.pending, filter_append, map_append, sum_append]
  by_cases hid : id = caller.id
  · have hall : (os.filterMap Outcome.request?).filter (fun r => r.job.caller.id == id) =
        os.filterMap Outcome.request? :=
      filter_eq_self.mpr fun r hr => by simp [hown r hr, hid]
    rw [if_pos hid, hall]
  have hnone : (os.filterMap Outcome.request?).filter (fun r => r.job.caller.id == id) = [] := by
    refine filter_eq_nil_iff.mpr fun r hr h => hid ?_
    rw [← hown r hr]
    exact (beq_iff_eq.mp h).symm
  rw [if_neg hid, hnone]
  rfl

/-- Requests stay within the limit of steps. -/
theorem Adds.withinLimit (h : Adds caller st st' os) (hlimit : WithinLimit P st)
    (hos : ∀ r, Outcome.request r ∈ os → r.nSteps ≤ P.stepLimit) : WithinLimit P st' := by
  intro r hr
  rw [h.pending] at hr
  rcases mem_append.mp hr with hr | hr
  · exact hlimit r hr
  obtain ⟨o, ho, heq⟩ := mem_filterMap.mp hr
  cases o with
  | call c => cases heq
  | request r' =>
    cases heq
    exact hos r ho

/-- A single outcome leaves a bounded number of answers. -/
theorem Emits.remaining_le {nSteps : ℕ} (h : Emits P caller nSteps st st' os) (hsingle : Single os)
    (hsteps : nSteps ≤ P.stepLimit) (hlimit : WithinLimit P st) :
    WithinLimit P st' ∧ ∀ id, st'.remaining P id ≤
      st.remaining P id + if id = caller.id then 2 * (P.stepLimit - nSteps) else 0 := by
  obtain ⟨o, rfl, -⟩ := hsingle
  refine ⟨h.adds.withinLimit hlimit fun r hr => ?_, fun id => ?_⟩
  · obtain ⟨-, -, hnext, hneq⟩ := h.requests r hr
    omega
  rw [h.adds.remaining_eq]
  refine Nat.add_le_add_left ?_ _
  by_cases hid : id = caller.id
  · cases o with
    | call c => simp
    | request r =>
      obtain ⟨-, hretries, hnext, hneq⟩ := h.requests r (mem_singleton_self _)
      have hcost : r.remaining P = 2 * (P.stepLimit - nSteps) := by
        unfold Request.remaining
        omega
      simp [hcost]
  · rw [if_neg hid, if_neg hid]

/-- Nothing remains without a request. -/
theorem remaining_eq_zero (h : st.requestOf id = none) : st.remaining P id = 0 := by
  unfold State.remaining
  rw [filter_eq_nil_iff.mpr fun r hr => find?_eq_none.mp h r hr]
  rfl

/-- A request that is over. -/
theorem WithinLimit.dropRequest (h : WithinLimit P st) (id : ℕ) :
    WithinLimit P (st.dropRequest id) :=
  fun r hr => h r (mem_of_mem_eraseP hr)

/-- What remains when a request is over. -/
theorem remaining_dropRequest (h : st.requestOf id = some r) : ∀ id', st.remaining P id' =
      (st.dropRequest id).remaining P id' + if id' = id then r.remaining P else 0 := by
  intro id'
  unfold State.remaining State.dropRequest
  unfold State.requestOf at h
  generalize st.pending = rs at h
  induction rs with
  | nil => cases h
  | cons x rs ih =>
    by_cases hx : x.job.caller.id = id
    · grind
    · grind

/-- What an answer or a timeout does to the time that is left for the calls: it takes some from the
one whose request it is about. -/
theorem remaining_le_of_drop (hr : st.requestOf id = some r)
    {cost : ℕ} (hcost : cost < r.remaining P)
    (hle : ∀ id', st'.remaining P id' ≤
      (st.dropRequest id).remaining P id' + if id' = id then cost else 0) (id' : ℕ) :
    st'.remaining P id' ≤ st.remaining P id' - if id == id' then 1 else 0 := by
  grind [remaining_dropRequest]

/-- An event that is not the call itself never gives a call more time, and an answer or a timeout
takes some away. -/
theorem remaining_step (hm : TableOk P st.lastTimestamp) (hlimit : WithinLimit P st)
    {e : ℤ × Event} (he : Orderly env P st e) :
    WithinLimit P (step env P st e) ∧ ∀ id, (step env P st e).remaining P id ≤
      (st.remaining P id - if e.2.isAnswer id then 1 else 0) +
        if e.2.isCall id then 2 * P.stepLimit else 0 := by
  obtain ⟨now, e⟩ := e
  cases e with
  | validate id p =>
    obtain ⟨os, hos, hiff⟩ := checkPolicy_emits env now hm ⟨⟨id, p, none⟩, []⟩ 0
    obtain ⟨hlimit', hle⟩ := hos.remaining_le (hiff.mpr he) (Nat.zero_le _) hlimit
    refine ⟨hlimit', fun id' => (hle id').trans ?_⟩
    grind [Event.isAnswer, Event.isCall]
  | answer id d =>
    simp only [step, Event.isAnswer, Event.isCall, Bool.false_eq_true, if_false, Nat.add_zero]
    rcases hr : st.requestOf id with _ | r
    · grind [remaining_eq_zero]
    obtain ⟨hmem, hid⟩ := requestOf_spec hr
    have hm' : TableOk P (st.dropRequest id).lastTimestamp := hm
    obtain ⟨os, hos, hiff⟩ := checkPolicy_emits env now hm'
      { r.job with chain := d :: r.job.chain } r.nSteps
    obtain ⟨hlimit', hle⟩ :=
      hos.remaining_le (hiff.mpr (he r hr)) (hlimit r hmem) (hlimit.dropRequest id)
    have hcost : 2 * (P.stepLimit - r.nSteps) < r.remaining P := by
      unfold Request.remaining
      omega
    exact ⟨hlimit', remaining_le_of_drop hr hcost (hid ▸ hle)⟩
  | timeout id =>
    simp only [step, Event.isAnswer, Event.isCall, Bool.false_eq_true, if_false, Nat.add_zero]
    rcases hr : st.requestOf id with _ | r
    · grind [remaining_eq_zero]
    obtain ⟨hmem, hid⟩ := requestOf_spec hr
    obtain ⟨o, -, hadds, hretry⟩ := onTimeout_adds r (st.dropRequest id)
    refine ⟨hadds.withinLimit (hlimit.dropRequest id) fun r' hr' => ?_, ?_⟩
    · rw [(hretry r' (mem_singleton.mp hr').symm).1]
      exact hlimit r hmem
    have hcost : (([o].filterMap Outcome.request?).map (Request.remaining P)).sum <
        r.remaining P := by
      cases o with
      | call c => simp [Request.remaining]
      | request r' =>
        obtain ⟨hsteps, hretries⟩ := hretry r' rfl
        simp only [Outcome.filterMap_request?_request, filterMap_nil, map_cons,
          map_nil, sum_cons, sum_nil, Request.remaining]
        omega
    refine remaining_le_of_drop hr hcost fun id' => ?_
    rw [hadds.remaining_eq, hid]
  | load s filename inRun =>
    obtain ⟨-, hpending⟩ := load_log_pending env P now s filename inRun st
    refine ⟨fun r hr => hlimit r (hpending ▸ hr), fun id => ?_⟩
    grind [State.remaining, step, Event.isAnswer]
  | reset inRun => exact ⟨hlimit, fun id => le_rfl⟩
  | poll =>
    simp only [step]
    split
    · exact ⟨hlimit, fun id => le_rfl⟩
    · exact ⟨hlimit, fun id => le_rfl⟩
  | expire n => exact ⟨hlimit, fun id => le_rfl⟩

/-- Every answer leaves less. -/
theorem remaining_run (hm : TableOk P st.lastTimestamp) (hlimit : WithinLimit P st)
    (horderly : OrderlyRun env P st es) (hcalls : calls es id = 0) :
    (run env P st es).remaining P id ≤ st.remaining P id - answers es id := by
  induction es generalizing st with
  | nil => exact le_rfl
  | cons e es ih =>
    obtain ⟨hlimit', hle⟩ := remaining_step hm hlimit horderly.1
    have hm' : TableOk P (step env P st e).lastTimestamp := (invariant_tableOk env P).step e hm
    simp only [calls, countP_cons, Nat.add_eq_zero_iff] at hcalls
    have hrest := ih hm' hlimit' horderly.2 hcalls.1
    have hone := hle id
    have hcall : e.2.isCall id = false := by
      by_contra h
      simp [h] at hcalls
    rw [hcall] at hone
    have hanswers : answers (e :: es) id = answers es id + if e.2.isAnswer id then 1 else 0 := by
      unfold answers
      rw [countP_cons]
    have hrun : run env P st (e :: es) = run env P (step env P st e) es := rfl
    rw [hrun, hanswers]
    simp only [Bool.false_eq_true, if_false, Nat.add_zero] at hone
    omega

/-- Requests stay within the limit in every orderly run. -/
theorem withinLimit_run (hm : TableOk P st.lastTimestamp) (hlimit : WithinLimit P st)
    (horderly : OrderlyRun env P st es) : WithinLimit P (run env P st es) := by
  induction es generalizing st with
  | nil => exact hlimit
  | cons e es ih =>
    have hm' : TableOk P (step env P st e).lastTimestamp := (invariant_tableOk env P).step e hm
    exact ih hm' (remaining_step hm hlimit horderly.1).1 horderly.2

/-- No request is left when nothing remains. -/
theorem outstanding_eq_zero (h : st.remaining P id = 0) : st.outstanding id = 0 := by
  unfold State.outstanding
  rw [countP_eq_zero]
  intro r hr hid
  have hmem : r.remaining P ∈
      (st.pending.filter fun r => r.job.caller.id == id).map (Request.remaining P) :=
    mem_map_of_mem (mem_filter.mpr ⟨hr, hid⟩)
  have hle := le_sum_of_mem hmem
  unfold State.remaining at h
  rw [h] at hle
  simp [Request.remaining] at hle

/-- Nothing was called at the beginning. -/
theorem balanced_init : CalledOnce [] (State.init : State κ ρ) :=
  ⟨fun _ => rfl, fun _ he => absurd he not_mem_nil⟩

/-- In the states of a run, each call of `validate` has been answered by one callback or waits for
one certificate, and no exception has left, exactly if every packet met what `PolicyOk` asks.  Then
a call that was followed by as many answers and timeouts as its requests can have has its one
callback. -/
theorem calledOnce_iff_orderlyRun (env : Env κ ρ) (P : Params) (es : List (ℤ × Event)) :
    ((∀ es', es' <+: es → CalledOnce es' (run env P .init es')) ↔ OrderlyRun env P .init es) ∧
    ∀ before after now id p, es = before ++ (now, .validate id p) :: after →
      OrderlyRun env P .init es → calls before id = 0 → calls after id = 0 →
      2 * P.stepLimit ≤ answers after id →
      (run env P .init es).callbacks id = 1 ∧ (run env P .init es).outstanding id = 0 ∧
        ∀ e ∈ (run env P .init es).log, e.call.isThrown = false := by
  have hiff : (∀ es', es' <+: es → CalledOnce es' (run env P .init es')) ↔
      OrderlyRun env P .init es := by
    simpa using calledOnce_run_iff env es tableOk_nil balanced_init
  refine ⟨hiff, ?_⟩
  rintro before after now id p rfl horderly hbefore hafter henough
  have hbalanced := hiff.mpr horderly _ (prefix_refl _)
  have hcalls : calls (before ++ (now, .validate id p) :: after) id = 1 := by
    grind [calls, Event.isCall]
  obtain ⟨hfirst, hcall, hrest⟩ := Runs.along_append.mp horderly
  have hm : TableOk P (run env P .init before).lastTimestamp :=
    (invariant_tableOk env P).run before tableOk_nil
  have hlimit : WithinLimit P (run env P .init before) :=
    withinLimit_run tableOk_nil (fun r hr => absurd hr not_mem_nil) hfirst
  have hstart : (run env P .init before).remaining P id = 0 := by
    have hle := remaining_run tableOk_nil (fun r hr => absurd hr not_mem_nil) hfirst hbefore
    have hzero : (State.init : State κ ρ).remaining P id = 0 := rfl
    omega
  obtain ⟨hlimit', hle⟩ := remaining_step hm hlimit hcall
  have hm' := (invariant_tableOk env P).step (now, .validate id p) hm
  have hend := remaining_run hm' hlimit' hrest hafter
  have hone := hle id
  grind [run, outstanding_eq_zero, hbalanced.count, hbalanced.noException]

/-- A rule for Data with two checkers: one for digests, one for RSA signatures. -/
def twoCheckersConfig : ConfigSection :=
  .mk [] (base64Config.children ++ [(Keyword.rule.text, .mk [] [(Keyword.id.text, .leaf []),
    (Keyword.ruleFor.text, .leaf Keyword.data.text),
    (Keyword.checker.text, .mk [] [(Keyword.type.text, .leaf Keyword.customized.text),
      (Keyword.sigType.text, .leaf Keyword.sha256.text),
      (Keyword.keyLocator.text, .mk [] [(Keyword.type.text, .leaf Keyword.name.text),
        (Keyword.regex.text, .leaf [])])]),
    (Keyword.checker.text, .mk [] [(Keyword.type.text, .leaf Keyword.customized.text),
      (Keyword.sigType.text, .leaf Keyword.rsaSha256.text),
      (Keyword.keyLocator.text, .mk [] [(Keyword.type.text, .leaf Keyword.name.text),
        (Keyword.regex.text, .leaf [])])])])])

/-- A validator without a Face, and without a cache. -/
def offlineParams : Params :=
  { defaultParams with hasFace := false }

/-- In the lenient environment every chain of certificates can be read. -/
theorem succeedOk_lenientEnv (P : Params) (now : ℤ) {caller : Caller} (hkey : caller.keyName = none)
    (m : LastTimestampMap) (chain : List SignedData) :
    SucceedOk lenientEnv P now caller m chain := by
  induction chain with
  | nil =>
    intro key time hkey'
    rw [hkey] at hkey'
    cases hkey'
  | cons d chain ih => exact ⟨fun _ h => (by cases h), fun _ _ _ => ih⟩

/-- With the rule for RSA signatures of Data, and without directories, a Data with such a signature
comes to one end. -/
theorem policyOk_ruleConfig (now : ℤ) {P : Params} (hcache : P.hasCache = true) {j : Job}
    {st : State ℕ Unit} {name signer : Name} (hkey : j.caller.keyName = none)
    (hpacket : j.packet = .data (dataSignedBy name signer))
    (hvalidates : st.policy.shouldValidate = true)
    (hrules : st.policy.dataRules = [⟨[], [], [.customized signatureSha256WithRsa (.regex ())]⟩])
    (hdirectories : st.policy.dynamicContainers = []) :
    PolicyOk lenientEnv P now j st := by
  unfold PolicyOk
  rw [if_neg (by simp [hvalidates]), hpacket, hrules]
  intro rule hrule
  rw [hpacket] at hrule
  obtain rfl := Option.some.inj hrule
  refine ⟨fun _ _ => ⟨.name signer, rfl, fun _ _ _ _ => trivial⟩, fun _ => ?_, fun _ => rfl⟩
  have htype : signatureSha256WithRsa ≠ digestSha256 := by decide
  refine ⟨fun hdigest => absurd hdigest htype, fun locator n _ _ _ => ?_⟩
  refine ⟨fun c hc => ?_, fun _ => hcache, fun cert _ _ => ?_⟩
  · rw [hdirectories] at hc
    exact absurd hc not_mem_nil
  · exact succeedOk_lenientEnv P now hkey _ _

/-- One step is allowed. -/
def oneStepParams : Params :=
  { defaultParams with stepLimit := 1 }

/-- A rule is loaded, and a Data is validated whose certificate is fetched and signed by the anchor.
A timeout comes too late. -/
def fetchEvents : List (ℤ × Event) :=
  [(0, .load ruleConfig [] true), (1, .validate 1 (.data (dataSignedBy [] certName))),
    (2, .answer 1 (dataSignedBy (certName ++ [.generic [1]]) [])), (3, .timeout 1)]

/-- A run that fetches a certificate. -/
theorem calledOnce_iff_orderlyRun_fetchEvents :
    (run lenientEnv oneStepParams .init (fetchEvents.take 2)).outstanding 1 = 1 ∧
      OrderlyRun lenientEnv oneStepParams .init fetchEvents ∧
      (run lenientEnv oneStepParams .init fetchEvents).callbacks 1 = 1 := by
  have horderly : OrderlyRun lenientEnv oneStepParams .init fetchEvents := by
    refine ⟨trivial, policyOk_ruleConfig 1 rfl rfl rfl rfl rfl rfl, ?_, trivial, trivial⟩
    intro r hr
    obtain rfl := Option.some.inj hr
    exact policyOk_ruleConfig 2 rfl rfl rfl rfl rfl rfl
  exact ⟨by decide +kernel, horderly,
    ((calledOnce_iff_orderlyRun lenientEnv oneStepParams fetchEvents).2
      [(0, .load ruleConfig [] true)] (fetchEvents.drop 2) 1 1 (.data (dataSignedBy [] certName))
      rfl horderly rfl rfl (by decide)).1⟩

/-- With two checkers, the caller of `validate` hears of a failure and of success.  Without a cache,
a Data whose key is not an anchor makes the validator use the end of the map of anchors. -/
theorem validate_calls_twice :
    (run lenientEnv defaultParams .init [(0, .load twoCheckersConfig [] true),
        (1, .validate 1 (.data (dataSignedBy [] [])))]).log.map Entry.call =
      [.failed (.typeMismatch digestSha256 signatureSha256WithRsa), .validated] ∧
    (run lenientEnv offlineParams .init [(0, .load ruleConfig [] true),
        (1, .validate 1 (.data (dataSignedBy [] certName)))]).log.map Entry.call =
      [.thrown .anchorAbsent] := by
  decide +kernel

end IcnDemo.Validator
