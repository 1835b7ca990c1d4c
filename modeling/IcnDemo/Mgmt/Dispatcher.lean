import IcnDemo.Lib.Runs
import IcnDemo.Name

/-!
# Control commands

`Dispatcher` takes Interests for control commands from the Face.  The component behind the prefix of
the command holds the parameters.  They are parsed into a new object, and an authorization is asked,
which is given two continuations.  It may call them before it returns, or later, or never.

Objects that a continuation points to are kept in a heap, from which they are removed when their
owner is gone: the parameters when `processControlCommandInterest` returns, and, if the
authorization is that of `ManagerBase`, the copy of the second continuation when `authorize`
returns.  Reading a component that does not exist and following a pointer to nothing are written to
the log as faults.
-/

namespace IcnDemo.Mgmt

open List

variable {π : Type}

/-- What an authorization asks for when it rejects. -/
inductive RejectReply where
  | silent
  | status403
deriving DecidableEq, Repr

/-- An authorization keeps copies of the continuations.  The one of `ManagerBase` passes a lambda
to its validator that has captured `reject` by reference. -/
inductive Authorization where
  | copies
  | managerBase
deriving DecidableEq, Repr

/-- The arguments of `addControlCommand`; `parse` is `none` when it throws a `tlv::Error`. -/
structure Command (π : Type) where
  parse : Component → Option π
  validate : π → Bool
  authorization : Authorization

/-- An Interest filter, with the top prefix that is bound to its handler. -/
structure Filter (π : Type) where
  topPrefix : Name
  relPrefix : Name
  command : Command π

/-- The Interests that a filter is for. -/
def Filter.doesMatch (f : Filter π) (n : Name) : Bool :=
  Name.isPrefixOf (f.topPrefix ++ f.relPrefix) n

/-- The index of the parameters. -/
def Filter.parametersLoc (f : Filter π) : ℕ :=
  f.topPrefix.length + f.relPrefix.length

/-- What a continuation may point to. -/
inductive Obj (π : Type) where
  | parameters (v : π)
  | reject (filter : Filter π) (interest : Name)

/-- The two continuations of one request: copies of the prefix and the Interest, a pointer to the
parameters, and a pointer to `reject` where that is not copied. -/
structure Continuations (π : Type) where
  filter : Filter π
  interest : Name
  parameters : ℕ
  reject : Option ℕ

/-- What an authorization may do with them. -/
inductive Answer where
  | accept
  | reject (act : RejectReply)
deriving DecidableEq, Repr

/-- What goes wrong: a component that is not there, and pointers to what is gone. -/
inductive Fault where
  | noComponent (interest : Name) (index : ℕ)
  | parametersGone
  | rejectGone
deriving DecidableEq, Repr

/-- Calls of the handler of a filter, responses to the request of a filter with their status code,
and faults. -/
inductive Entry (π : Type) where
  | handled (filter : Filter π) (interest : Name) (parameters : π)
  | response (filter : Filter π) (interest : Name) (code : ℕ)
  | fault (f : Fault)

/-- The dispatcher with the objects its continuations point to, and what it has done. -/
structure Dispatcher (π : Type) where
  handlers : List (Name × Command π)
  topLevelPrefixes : List Name
  filters : List (Filter π)
  heap : List (ℕ × Obj π)
  next : ℕ
  pending : List (Continuations π)
  log : List (Entry π)

namespace Dispatcher

/-- A new dispatcher. -/
def init : Dispatcher π :=
  ⟨[], [], [], [], 0, [], []⟩

/-- Write an entry to the log. -/
def record (e : Entry π) (d : Dispatcher π) : Dispatcher π :=
  { d with log := d.log ++ [e] }

/-- A new object at `d.next`. -/
def alloc (o : Obj π) (d : Dispatcher π) : Dispatcher π :=
  { d with heap := (d.next, o) :: d.heap, next := d.next + 1 }

/-- Remove the object at an address. -/
def free (p : ℕ) (d : Dispatcher π) : Dispatcher π :=
  { d with heap := d.heap.filter fun e => e.1 != p }

/-- One of two names begins with the other. -/
def overlap (a b : Name) : Bool :=
  a.isPrefixOf b || b.isPrefixOf a

/-- `addControlCommand`, without effect when it throws. -/
def addControlCommand (relPrefix : Name) (command : Command π) (d : Dispatcher π) : Dispatcher π :=
  if !d.topLevelPrefixes.isEmpty then d
  else if d.handlers.any fun h => overlap h.1 relPrefix then d
  else { d with handlers := d.handlers ++ [(relPrefix, command)] }

/-- `addTopPrefix`, without effect when it throws. -/
def addTopPrefix (topPrefix : Name) (d : Dispatcher π) : Dispatcher π :=
  if d.topLevelPrefixes.any fun p => overlap p topPrefix then d
  else
    { d with
      topLevelPrefixes := d.topLevelPrefixes ++ [topPrefix]
      filters := d.filters ++ d.handlers.map fun h => ⟨topPrefix, h.1, h.2⟩ }

/-- `removeTopPrefix`. -/
def removeTopPrefix (topPrefix : Name) (d : Dispatcher π) : Dispatcher π :=
  { d with
    topLevelPrefixes := d.topLevelPrefixes.filter fun p => p != topPrefix
    filters := d.filters.filter fun f => f.topPrefix != topPrefix }

/-- `processAuthorizedControlCommandInterest`. -/
def processAuthorizedControlCommandInterest (c : Continuations π) (d : Dispatcher π) :
    Dispatcher π :=
  match d.heap.lookup c.parameters with
  | some (.parameters v) =>
    if c.filter.command.validate v then d.record (.handled c.filter c.interest v)
    else d.record (.response c.filter c.interest 400)
  | _ => d.record (.fault .parametersGone)

/-- `afterAuthorizationRejected`. -/
def afterAuthorizationRejected (act : RejectReply) (f : Filter π) (interest : Name)
    (d : Dispatcher π) : Dispatcher π :=
  match act with
  | .silent => d
  | .status403 => d.record (.response f interest 403)

/-- A call of one of the continuations.  The lambda of `ManagerBase` always rejects with a reply. -/
def call (c : Continuations π) (d : Dispatcher π) : Answer → Dispatcher π
  | .accept => d.processAuthorizedControlCommandInterest c
  | .reject act =>
    match c.reject with
    | none => d.afterAuthorizationRejected act c.filter c.interest
    | some p =>
      match d.heap.lookup p with
      | some (.reject f interest) => d.afterAuthorizationRejected .status403 f interest
      | _ => d.record (.fault .rejectGone)

/-- The call of the authorization, which answers what is given before it returns. -/
def authorize (f : Filter π) (n : Name) (parameters : ℕ) (answers : List Answer)
    (d : Dispatcher π) : Dispatcher π :=
  match f.command.authorization with
  | .copies =>
    let c : Continuations π := ⟨f, n, parameters, none⟩
    let d := answers.foldl (call c) d
    { d with pending := d.pending ++ [c] }
  | .managerBase =>
    let c : Continuations π := ⟨f, n, parameters, some d.next⟩
    let reject := d.next
    let d := answers.foldl (call c) (d.alloc (.reject f n))
    { d.free reject with pending := d.pending ++ [c] }

/-- `processControlCommandInterest`. -/
def processControlCommandInterest (f : Filter π) (n : Name) (answers : List Answer)
    (d : Dispatcher π) : Dispatcher π :=
  match n[f.parametersLoc]? with
  | none => d.record (.fault (.noComponent n f.parametersLoc))
  | some pc =>
    match f.command.parse pc with
    | none => d
    | some v => ((d.alloc (.parameters v)).authorize f n d.next answers).free d.next

/-- `processInterestFilters`. -/
def onInterest (n : Name) (answers : List Answer) (d : Dispatcher π) : Dispatcher π :=
  (d.filters.filter fun f => f.doesMatch n).foldl
    (fun d f => d.processControlCommandInterest f n answers) d

/-- Calls of the dispatcher, Interests with the answers given at once, and later answers to one of
the requests. -/
inductive Event (π : Type) where
  | addControlCommand (relPrefix : Name) (command : Command π)
  | addTopPrefix (topPrefix : Name)
  | removeTopPrefix (topPrefix : Name)
  | interest (n : Name) (answers : List Answer)
  | answer (request : ℕ) (a : Answer)

/-- The effect of an event. -/
def step (d : Dispatcher π) : Event π → Dispatcher π
  | .addControlCommand relPrefix command => d.addControlCommand relPrefix command
  | .addTopPrefix topPrefix => d.addTopPrefix topPrefix
  | .removeTopPrefix topPrefix => d.removeTopPrefix topPrefix
  | .interest n answers => d.onInterest n answers
  | .answer request a =>
    match d.pending[request]? with
    | none => d
    | some c => d.call c a

/-- The state after a run. -/
def run (d : Dispatcher π) (events : List (Event π)) : Dispatcher π :=
  events.foldl step d

theorem run_append (d : Dispatcher π) (es : List (Event π)) (e : Event π) :
    d.run (es ++ [e]) = (d.run es).step e := by
  simp [run]

/-! ### What should hold -/

/-- An Interest is for the command of a filter, and has these parameters. -/
def IsCommand (f : Filter π) (interest : Name) (v : π) : Prop :=
  f.doesMatch interest = true ∧
    ∃ c, interest[f.parametersLoc]? = some c ∧ f.command.parse c = some v

/-- No fault; a handler sees the parameters of its Interest, and a response is to an Interest for
the command, with code 400 only if the parameters of this Interest are not valid. -/
def Entry.Sound : Entry π → Prop
  | .handled f interest v => IsCommand f interest v
  | .response f interest code => ∃ v, IsCommand f interest v ∧
      (code = 403 ∨ code = 400 ∧ f.command.validate v = false)
  | .fault _ => False

/-- Everything that has happened is as it should be. -/
def Sound (d : Dispatcher π) : Prop :=
  ∀ e ∈ d.log, Entry.Sound e

/-- An Interest has a component behind the prefix of the command; later answers are rejections, and
not through the lambda of `ManagerBase`. -/
def SafeStep (d : Dispatcher π) : Event π → Prop
  | .interest n _ => ∀ f ∈ d.filters, f.doesMatch n = true → f.parametersLoc < n.length
  | .answer request a => ∀ c ∈ d.pending[request]?,
      a ≠ .accept ∧ c.filter.command.authorization = .copies
  | _ => True

/-- All steps of a run are safe. -/
def SafeRun (events : List (Event π)) : Prop :=
  Runs.Along step SafeStep init events

/-! ### One Interest -/

/-- What a call of a continuation writes while its objects are there. -/
def reply (f : Filter π) (n : Name) (v : π) : Answer → List (Entry π)
  | .accept => if f.command.validate v then [.handled f n v] else [.response f n 400]
  | .reject act =>
    match f.command.authorization, act with
    | .copies, .silent => []
    | _, _ => [.response f n 403]

/-- What an Interest writes. -/
def outcome (f : Filter π) (n : Name) (answers : List Answer) : List (Entry π) :=
  match n[f.parametersLoc]? with
  | none => [.fault (.noComponent n f.parametersLoc)]
  | some pc =>
    match f.command.parse pc with
    | none => []
    | some v => answers.flatMap (reply f n v)

variable {d : Dispatcher π} {f : Filter π} {n : Name}

/-- What the continuations write while their objects are there. -/
theorem foldl_call {v : π} {c : Continuations π}
    (hfilter : c.filter = f) (hinterest : c.interest = n)
    (hparameters : d.heap.lookup c.parameters = some (.parameters v))
    (hreject : match f.command.authorization with
      | .copies => c.reject = none
      | .managerBase => ∃ p, c.reject = some p ∧ d.heap.lookup p = some (.reject f n))
    (answers : List Answer) :
    answers.foldl (call c) d = { d with log := d.log ++ answers.flatMap (reply f n v) } := by
  subst hfilter hinterest
  have hcall : ∀ (d' : Dispatcher π) (a : Answer), d'.heap = d.heap →
      call c d' a = { d' with log := d'.log ++ reply c.filter c.interest v a } := by
    intro d' a hheap
    cases a with
    | accept =>
      have hlookup : d'.heap.lookup c.parameters = some (.parameters v) := hheap ▸ hparameters
      simp only [call, processAuthorizedControlCommandInterest, hlookup, reply]
      split <;> rfl
    | reject act =>
      cases hauth : c.filter.command.authorization with
      | copies =>
        simp only [hauth] at hreject
        cases act with
        | silent => simp [call, hreject, reply, hauth, afterAuthorizationRejected]
        | status403 => simp [call, hreject, reply, hauth, afterAuthorizationRejected, record]
      | managerBase => grind [call, reply, afterAuthorizationRejected, record]
  clear hreject hparameters
  induction answers generalizing d with
  | nil => simp
  | cons a answers ih => simp_all

/-- Request of one Interest, if it gets that far. -/
def request (f : Filter π) (n : Name) (next : ℕ) : List (Continuations π) :=
  match n[f.parametersLoc]? with
  | none => []
  | some pc =>
    match f.command.parse pc with
    | none => []
    | some _ =>
      match f.command.authorization with
      | .copies => [⟨f, n, next, none⟩]
      | .managerBase => [⟨f, n, next, some (next + 1)⟩]

/-- An Interest adds its request and writes its outcome. -/
theorem processControlCommandInterest_eq (hheap : d.heap = []) (f : Filter π)
    (n : Name) (answers : List Answer) :
    ∃ next, d.processControlCommandInterest f n answers = { d with
        next := next
        pending := d.pending ++ request f n d.next
        log := d.log ++ outcome f n answers } := by
  unfold processControlCommandInterest request outcome
  rcases hcomponent : n[f.parametersLoc]? with _ | pc
  · exact ⟨d.next, by simp [record]⟩
  rcases hparse : f.command.parse pc with _ | v
  · exact ⟨d.next, by simp [hparse]⟩
  simp only [hparse, authorize]
  cases hauth : f.command.authorization with
  | copies => simp_all [foldl_call, alloc, free]
  | managerBase =>
    have hne : (d.next == d.next + 1) = false := by simp
    simp only
    rw [foldl_call (f := f) (n := n) (v := v) rfl rfl
      (by simp [alloc, lookup_cons, hne]) (by simp [hauth, alloc])]
    exact ⟨d.next + 2, by simp [alloc, free, hheap]⟩

/-! ### Runs -/

/-- A request is for a command, and has a pointer to `reject` where that is not copied. -/
def Continuations.Parsed (c : Continuations π) : Prop :=
  (c.reject = none ↔ c.filter.command.authorization = .copies) ∧
    ∃ v, IsCommand c.filter c.interest v

/-- Between events nothing is in the heap, and requests have been parsed. -/
structure Consistent (d : Dispatcher π) : Prop where
  heap : d.heap = []
  pending : ∀ c ∈ d.pending, Continuations.Parsed c

/-- The request of an Interest has been parsed. -/
theorem parsed_request (hmatch : f.doesMatch n = true) {next : ℕ} :
    ∀ c ∈ request f n next, Continuations.Parsed c := by
  intro c hc
  unfold request at hc
  rcases hpc : n[f.parametersLoc]? with _ | pc
  · simp [hpc] at hc
  rcases hparse : f.command.parse pc with _ | v
  · simp [hpc, hparse] at hc
  have hcommand : IsCommand f n v := ⟨hmatch, pc, hpc, hparse⟩
  grind [Continuations.Parsed]

/-- The outcome of an Interest is sound if it has the component with the parameters. -/
theorem sound_outcome_iff (hmatch : f.doesMatch n = true) (answers : List Answer) :
    (∀ e ∈ outcome f n answers, Entry.Sound e) ↔ f.parametersLoc < n.length := by
  unfold outcome
  rcases hpc : n[f.parametersLoc]? with _ | pc
  · have hlen := getElem?_eq_none_iff.mp hpc
    exact iff_of_false (fun h => h _ (List.mem_singleton_self _)) (by omega)
  obtain ⟨hlen, -⟩ := List.getElem?_eq_some_iff.mp hpc
  refine iff_of_true (fun e he => ?_) hlen
  rcases hparse : f.command.parse pc with _ | v
  · simp [hparse] at he
  simp only [hparse] at he
  have hcommand : IsCommand f n v := ⟨hmatch, pc, hpc, hparse⟩
  obtain ⟨a, -, ha⟩ := mem_flatMap.mp he
  unfold reply at ha
  split at ha
  · split at ha
    · obtain rfl := mem_singleton.mp ha
      exact hcommand
    · rename_i hvalid
      obtain rfl := mem_singleton.mp ha
      exact ⟨v, hcommand, .inr ⟨rfl, by simpa using hvalid⟩⟩
  · split at ha
    · cases ha
    · obtain rfl := mem_singleton.mp ha
      exact ⟨v, hcommand, .inl rfl⟩

/-- The log grows by these entries, and the dispatcher stays consistent. -/
structure Writes (d d' : Dispatcher π) (entries : List (Entry π)) : Prop where
  consistent : d'.Consistent
  log : d'.log = d.log ++ entries

/-- The log is sound if what was written is. -/
theorem Writes.sound_iff {d d' : Dispatcher π} {entries : List (Entry π)}
    (h : Writes d d' entries) : d'.Sound ↔ d.Sound ∧ ∀ e ∈ entries, Entry.Sound e := by
  simp only [Sound, h.log, forall_mem_append]

/-- An Interest writes its outcome. -/
theorem writes_processControlCommandInterest (h : d.Consistent) (hmatch : f.doesMatch n = true)
    (answers : List Answer) :
    Writes d (d.processControlCommandInterest f n answers) (outcome f n answers) := by
  obtain ⟨next, heq⟩ := processControlCommandInterest_eq h.heap f n answers
  rw [heq]
  refine ⟨⟨h.heap, fun c hc => ?_⟩, rfl⟩
  grind [h.pending, parsed_request]

/-- An Interest writes the outcomes of all its filters. -/
theorem writes_foldl (answers : List Answer) {fs : List (Filter π)}
    (hmatch : ∀ f ∈ fs, f.doesMatch n = true) (h : d.Consistent) :
    Writes d (fs.foldl (fun d f => d.processControlCommandInterest f n answers) d)
      (fs.flatMap fun f => outcome f n answers) := by
  induction fs generalizing d with
  | nil => exact ⟨h, by simp⟩
  | cons f fs ih =>
    have hfirst := writes_processControlCommandInterest h (hmatch f mem_cons_self) answers
    have hrest := ih (fun g hg => hmatch g (mem_cons_of_mem f hg)) hfirst.consistent
    refine ⟨hrest.consistent, ?_⟩
    rw [foldl_cons, hrest.log, hfirst.log, flatMap_cons, append_assoc]

/-- A later answer is sound only if it is a rejection that keeps its copies. -/
theorem writes_call (h : d.Consistent) {c : Continuations π} (hc : c ∈ d.pending) (a : Answer) :
    ∃ entries, Writes d (d.call c a) entries ∧ ((∀ e ∈ entries, Entry.Sound e) ↔
        a ≠ .accept ∧ c.filter.command.authorization = .copies) := by
  have hrecord : ∀ e, Writes d (d.record e) [e] := fun e => ⟨⟨h.heap, h.pending⟩, rfl⟩
  obtain ⟨hreject, v, hcommand⟩ := h.pending c hc
  cases a with
  | accept =>
    have hcall : d.call c .accept = d.record (.fault .parametersGone) := by
      simp [call, processAuthorizedControlCommandInterest, h.heap]
    rw [hcall]
    exact ⟨_, hrecord _, iff_of_false (fun hall => hall _ (mem_singleton_self _)) (by simp)⟩
  | reject act =>
    cases hauth : c.filter.command.authorization with
    | copies =>
      have hnone := hreject.mpr hauth
      cases act with
      | silent =>
        have hcall : d.call c (.reject .silent) = d := by
          simp [call, hnone, afterAuthorizationRejected]
        rw [hcall]
        exact ⟨[], ⟨h, by simp⟩, iff_of_true (by simp) (by simp)⟩
      | status403 => grind [call, afterAuthorizationRejected, Entry.Sound]
    | managerBase =>
      have hsome : c.reject ≠ none := fun hnone => by simp [hreject.mp hnone] at hauth
      obtain ⟨p, hp⟩ := Option.ne_none_iff_exists'.mp hsome
      have hcall : d.call c (.reject act) = d.record (.fault .rejectGone) := by
        simp [call, hp, h.heap]
      rw [hcall]
      exact ⟨_, hrecord _, iff_of_false (fun hall => hall _ (mem_singleton_self _)) (by simp)⟩

/-- An event keeps the log sound exactly if it is safe. -/
theorem step_sound_iff (h : d.Consistent) (e : Event π) :
    (d.step e).Consistent ∧ ((d.step e).Sound ↔ d.Sound ∧ SafeStep d e) := by
  cases e with
  | addControlCommand relPrefix command =>
    simp only [step, SafeStep, and_true, addControlCommand]
    split
    · exact ⟨h, Iff.rfl⟩
    · split
      · exact ⟨h, Iff.rfl⟩
      · exact ⟨⟨h.heap, h.pending⟩, Iff.rfl⟩
  | addTopPrefix topPrefix =>
    simp only [step, SafeStep, and_true, addTopPrefix]
    split
    · exact ⟨h, Iff.rfl⟩
    · exact ⟨⟨h.heap, h.pending⟩, Iff.rfl⟩
  | removeTopPrefix topPrefix =>
    exact ⟨⟨h.heap, h.pending⟩, (and_iff_left trivial).symm⟩
  | interest n answers =>
    have hmatch : ∀ f ∈ d.filters.filter fun f => f.doesMatch n, f.doesMatch n = true :=
      fun f hf => (mem_filter.mp hf).2
    have hwrites := writes_foldl answers hmatch h
    refine ⟨hwrites.consistent, hwrites.sound_iff.trans (and_congr_right fun _ => ?_)⟩
    simp only [SafeStep, mem_flatMap, mem_filter]
    constructor
    · intro hall f hf hmatch
      exact (sound_outcome_iff hmatch answers).mp fun e he => hall e ⟨f, ⟨hf, hmatch⟩, he⟩
    · rintro hall e ⟨f, ⟨hf, hmatch⟩, he⟩
      exact (sound_outcome_iff hmatch answers).mpr (hall f hf hmatch) e he
  | answer k a =>
    simp only [step, SafeStep]
    cases hc : d.pending[k]? with
    | none => exact ⟨h, by simp⟩
    | some c =>
      obtain ⟨entries, hwrites, hentries⟩ := writes_call h (mem_of_getElem? hc) a
      grind [hwrites.consistent, hwrites.sound_iff]

/-- The dispatcher is consistent in every run. -/
theorem consistent_run (events : List (Event π)) : (init.run events).Consistent := by
  induction events using reverseRecOn with
  | nil => exact ⟨rfl, by simp [run, init]⟩
  | append_singleton es e ih =>
    rw [run_append]
    exact (step_sound_iff ih e).1

/-- Commands are processed soundly exactly in runs with safe steps: Interests with a component for
the parameters, and no answer that needs what is gone. -/
theorem sound_run_iff_safeRun (events : List (Event π)) :
    (init.run events).Sound ↔ SafeRun events := by
  induction events using reverseRecOn with
  | nil => exact iff_of_true (by simp [Sound, run, init]) trivial
  | append_singleton es e ih =>
    rw [SafeRun, Runs.along_concat, run_append]
    exact (step_sound_iff (consistent_run es) e).2.trans (and_congr_left fun _ => ih)

/-- A command whose parameters are the number of bytes in a component. -/
def sizeCommand (authorization : Authorization) : Command ℕ :=
  ⟨fun c => some c.value.length, fun v => v != 0, authorization⟩

/-- A dispatcher with one command under one top prefix. -/
def oneCommand (authorization : Authorization) (events : List (Event ℕ)) : List (Event ℕ) :=
  [.addControlCommand [.generic [2]] (sizeCommand authorization), .addTopPrefix [.generic [1]]] ++
    events

/-- An Interest for the bare command; a late acceptance; a late rejection by `ManagerBase`. -/
def faultyRuns : List (List (Event ℕ)) :=
  [oneCommand .copies [.interest [.generic [1], .generic [2]] []],
    oneCommand .copies [.interest [.generic [1], .generic [2], .generic [7]] [], .answer 0 .accept],
    oneCommand .managerBase [.interest [.generic [1], .generic [2], .generic [7]] [],
      .answer 0 (.reject .status403)]]

/-- The faults in a log. -/
def faults (d : Dispatcher π) : List Fault :=
  d.log.filterMap fun
    | .fault f => some f
    | _ => none

/-- A sound log has no faults. -/
theorem faults_eq_nil_of_sound (h : d.Sound) : d.faults = [] := by
  refine filterMap_eq_nil_iff.mpr fun e he => ?_
  have hsound := h e he
  cases e with
  | handled f n v => rfl
  | response f n code => rfl
  | fault f => exact hsound.elim

/-- They read a component that does not exist, parameters that are gone, and a function that is
gone. -/
theorem faults_of_faultyRuns : faultyRuns.map (fun events => (init.run events).faults) =
        [[.noComponent [.generic [1], .generic [2]] 2], [.parametersGone], [.rejectGone]] ∧
      ∀ events ∈ faultyRuns, ¬ (init.run events).Sound := by
  have hfaults : ∀ events ∈ faultyRuns, (init.run events).faults ≠ [] := by decide +kernel
  exact ⟨by decide +kernel,
    fun events he hsound => hfaults events he (faults_eq_nil_of_sound hsound)⟩

end Dispatcher

end IcnDemo.Mgmt
