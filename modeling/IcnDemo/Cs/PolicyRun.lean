import IcnDemo.Cs.Policy
import IcnDemo.Lib.Keyed

/-!
# The queues of the content store

`Core` says that the map of entry infos, the queues and the events agree; it holds also in the
middle of an operation.  `Inv` adds that every stored entry is in the map, in the queue it belongs
to. Between `detachQueue` and `attachQueue` one entry is `Loose`.

`wellKept_run` is the result: no operation follows a dangling pointer, and after every run each
entry is in one queue, has an event just if it waits for one, and no more entries are stored than
allowed.
-/

namespace IcnDemo

open List Option CsTable Prod Keyed Cs

/-! ### The table -/

namespace CsTable

variable {T : CsTable} {i j : Iter} {e e' : CsEntry}

/-- The iterators of the table. -/
def iters (T : CsTable) : List Iter :=
  T.nodes.map Prod.fst

/-- The iterators are those of the nodes. -/
theorem mem_iters : i ∈ T.iters ↔ ∃ e, (i, e) ∈ T.nodes := by
  simp [iters]

/-- Dereferencing an iterator gives its node. -/
theorem deref_eq_some_iff (hnodup : T.iters.Nodup) : T.deref i = some e ↔ (i, e) ∈ T.nodes :=
  find?_fst_eq_some_iff hnodup

/-- No two nodes hold equal Data. -/
theorem eq_of_compare_eq (h : (i, e) ∈ T.nodes) (h' : (j, e') ∈ T.nodes)
    (heq : compareDataWithData e.data e'.data = .eq) : i = j := by
  have hsymm : Std.Symm fun p q : Iter × CsEntry =>
      compareDataWithData p.2.data q.2.data = .eq → p = q := by
    constructor
    grind [compareDataWithData_eq]
  have hall : ∀ ⦃p⦄, p ∈ T.nodes → ∀ ⦃q⦄, q ∈ T.nodes →
      compareDataWithData p.2.data q.2.data = .eq → p = q := by
    refine Pairwise.forall_of_forall (fun _ _ _ => rfl) (T.sorted.imp ?_)
    intro p q hlt hpq
    rw [hlt] at hpq
    cases hpq
  exact congrArg fst (hall h h' heq)

/-- The nodes after a change in place. -/
theorem mem_modify {g : CsEntry → CsEntry} (hg : ∀ e, (g e).data = e.data) :
    (j, e') ∈ (T.modify i g hg).nodes ↔ ∃ e, (j, e) ∈ T.nodes ∧ e' = if j = i then g e else e := by
  unfold modify
  grind

/-- A change in place keeps the iterators. -/
theorem iters_modify {g : CsEntry → CsEntry} {hg : ∀ e, (g e).data = e.data} :
    (T.modify i g hg).iters = T.iters := by
  unfold iters modify
  grind [map_congr_left]

/-- The nodes after an insertion. -/
theorem nodes_insertNode_perm (hnew : T.same e.data = none) :
    (T.insertNode i e hnew).nodes.Perm ((i, e) :: T.nodes) := by
  refine perm_middle.trans ?_
  rw [takeWhile_append_dropWhile]

/-- The iterators after an insertion. -/
theorem iters_insertNode_perm (hnew : T.same e.data = none) :
    (T.insertNode i e hnew).iters.Perm (i :: T.iters) :=
  (nodes_insertNode_perm hnew).map fst

/-- The nodes after an erasure. -/
theorem mem_erase (hnodup : T.iters.Nodup) :
    (j, e) ∈ (T.erase i).nodes ↔ (j, e) ∈ T.nodes ∧ j ≠ i :=
  mem_eraseP fst hnodup

/-- The iterators after an erasure. -/
theorem mem_iters_erase (hnodup : T.iters.Nodup) : j ∈ (T.erase i).iters ↔ j ∈ T.iters ∧ j ≠ i := by
  simp [mem_iters, mem_erase hnodup]

/-- The iterators stay distinct. -/
theorem nodup_iters_erase (hnodup : T.iters.Nodup) : (T.erase i).iters.Nodup :=
  hnodup.sublist (eraseP_sublist.map _)

/-- An erasure takes one node. -/
theorem length_erase (hi : i ∈ T.iters) : (T.erase i).nodes.length + 1 = T.nodes.length := by
  obtain ⟨e, hmem⟩ := mem_iters.mp hi
  have hlength := length_eraseP_of_mem (p := fun p : Iter × CsEntry => p.1 == i) hmem (by simp)
  have hpos := length_pos_of_mem hmem
  have hnodes : (T.erase i).nodes = T.nodes.eraseP fun p => p.1 == i := rfl
  rw [hnodes, hlength]
  omega

end CsTable

/-! ### The invariant -/

namespace PriorityFifo

variable {s : PriorityFifo} {i j : Iter} {x : EntryInfo} {e : CsEntry}

/-- The iterators in the map of entry infos. -/
def keys (s : PriorityFifo) : List Iter :=
  s.entryInfoMap.map Prod.fst

/-- The keys are those of the map. -/
theorem mem_keys : i ∈ s.keys ↔ ∃ x, (i, x) ∈ s.entryInfoMap := by
  simp [keys]

/-- The parts of the state agree. -/
structure Core (s : PriorityFifo) : Prop where
  iters : s.table.iters.Nodup
  iters_lt : ∀ i ∈ s.table.iters, i < s.nextIter
  keys : s.keys.Nodup
  keys_stored : ∀ i ∈ s.keys, i ∈ s.table.iters
  /-- The queues hold what the entry infos say. -/
  queue : ∀ t q i, (q, i) ∈ s.queues t ↔
    ∃ x, (i, x) ∈ s.entryInfoMap ∧ x.queueType = t ∧ x.queueIt = q
  queueIts : ∀ t, ((s.queues t).map Prod.fst).Nodup
  queueIts_lt : ∀ t, ∀ p ∈ s.queues t, p.1 < s.nextQueueIt
  /-- The pending events are those of the entry infos in the FIFO queue. -/
  event : ∀ id i, (id, i) ∈ s.events ↔
    ∃ x, (i, x) ∈ s.entryInfoMap ∧ x.queueType = .fifo ∧ x.moveStaleEventId = some id
  events : (s.events.map Prod.fst).Nodup
  events_lt : ∀ p ∈ s.events, p.1 < s.nextEvent

/-- An entry info fits its entry. -/
def Fits (x : EntryInfo) (e : CsEntry) : Prop :=
  (x.queueType = .unsolicited ↔ e.isUnsolicited = true) ∧
    (x.queueType = .fifo → (x.moveStaleEventId.isSome = true ↔ e.canStale = true))

/-- The entry info of an iterator fits its entry. -/
def Placed (s : PriorityFifo) (i : Iter) : Prop :=
  ∀ x e, (i, x) ∈ s.entryInfoMap → (i, e) ∈ s.table.nodes → Fits x e

/-- The invariant between two operations. -/
structure Inv (s : PriorityFifo) : Prop where
  core : Core s
  covered : ∀ i ∈ s.table.iters, i ∈ s.keys
  placed : ∀ i, Placed s i

/-- One stored entry is in no queue. -/
structure Loose (s : PriorityFifo) (i : Iter) : Prop where
  core : Core s
  stored : i ∈ s.table.iters
  loose : i ∉ s.keys
  covered : ∀ j ∈ s.table.iters, j ≠ i → j ∈ s.keys
  placed : ∀ j, Placed s j

/-! ### The map of entry infos -/

section

variable (h : Core s) (hi : i ∈ s.table.iters)

include h hi

/-- Iterators to stored entries are equivalent if they are the same. -/
theorem Core.equivalent_eq (hj : j ∈ s.table.iters) : s.equivalent i j = (i == j) := by
  obtain ⟨e, he⟩ := mem_iters.mp hi
  obtain ⟨e', he'⟩ := mem_iters.mp hj
  unfold equivalent
  simp only [(deref_eq_some_iff h.iters).mpr he,
    (deref_eq_some_iff h.iters).mpr he']
  rw [Bool.eq_iff_iff, beq_iff_eq, beq_iff_eq]
  constructor
  · exact eq_of_compare_eq he he'
  rintro rfl
  have heq := (deref_eq_some_iff h.iters).mpr he
  rw [(deref_eq_some_iff h.iters).mpr he'] at heq
  grind [compareDataWithData_eq]

/-- So are the keys of the map. -/
theorem Core.equivalent_key : ∀ p ∈ s.entryInfoMap, s.equivalent p.1 i = (p.1 == i) := by
  intro p hp
  exact h.equivalent_eq (h.keys_stored p.1 (mem_map_of_mem hp)) hi

/-- The map is read by its keys. -/
theorem Core.entryInfo_eq_some_iff : s.entryInfo i = some x ↔ (i, x) ∈ s.entryInfoMap := by
  unfold entryInfo
  rw [find?_congr (h.equivalent_key hi)]
  exact find?_fst_eq_some_iff h.keys

/-- An assignment replaces the info of one key. -/
theorem Core.mem_assignInfo {p : Iter × EntryInfo} :
    p ∈ s.assignInfo i x ↔ p = (i, x) ∨ p ∈ s.entryInfoMap ∧ p.1 ≠ i := by
  unfold assignInfo
  rw [findIdx?_congr (h.equivalent_key hi)]
  rcases hk : s.entryInfoMap.findIdx? (fun p => p.1 == i) with _ | k
  · grind
  · obtain ⟨old, hold⟩ := exists_find?_of_findIdx? hk
    have hkey : old.1 = i := by simpa using find?_some hold
    simp only [hk]
    rw [mem_modify_findIdx? fst _ h.keys hold hk, hkey]

/-- The keys stay distinct after an assignment. -/
theorem Core.nodup_assignInfo : ((s.assignInfo i x).map fst).Nodup := by
  unfold assignInfo
  rw [findIdx?_congr (h.equivalent_key hi)]
  rcases hk : s.entryInfoMap.findIdx? (fun p => p.1 == i) with _ | k
  · simp only [hk]
    rw [map_append, map_singleton, nodup_append]
    refine ⟨h.keys, nodup_singleton _, ?_⟩
    grind
  · have hfst : (s.entryInfoMap.modify k fun p => (p.1, x)).map fst = s.keys :=
      map_modify (by intro p; rfl) _ k
    simp only [hk]
    rw [hfst]
    exact h.keys

/-- The info of one key is erased. -/
theorem Core.eraseInfo_eq : s.eraseInfo i = s.entryInfoMap.eraseP fun p => p.1 == i :=
  eraseP_congr (h.equivalent_key hi)

/-- What is left after the info of one key was erased. -/
theorem Core.mem_eraseInfo {p : Iter × EntryInfo} :
    p ∈ s.eraseInfo i ↔ p ∈ s.entryInfoMap ∧ p.1 ≠ i := by
  rw [h.eraseInfo_eq hi]
  exact mem_eraseP fst h.keys

end

/-- A key has one info. -/
theorem Core.info_unique (h : Core s) {x y : EntryInfo} (hx : (i, x) ∈ s.entryInfoMap)
    (hy : (i, y) ∈ s.entryInfoMap) : x = y := by
  have heq := inj_on_of_nodup_map h.keys hx hy rfl
  exact congrArg snd heq

/-! ### Queues and events -/

variable {queues : QueueType → List (QueueIt × Iter)} {t : QueueType} {id : EventId} {q : QueueIt}

section

variable (hnodup : ∀ t, ((queues t).map Prod.fst).Nodup)

include hnodup

/-- The queue iterators stay distinct when a new one is appended. -/
theorem nodup_update_append {next : QueueIt} (hlt : ∀ t, ∀ p ∈ queues t, p.1 < next) (t : QueueType)
    (i : Iter) (t' : QueueType) :
    ((Function.update queues t (queues t ++ [(next, i)]) t').map fst).Nodup := by
  by_cases ht : t' = t
  · subst ht
    grind
  · rw [Function.update_of_ne ht]
    exact hnodup t'

/-- What is left in the queues after an erasure. -/
theorem mem_update_erase {t t' : QueueType} {p : QueueIt × Iter} :
    p ∈ Function.update queues t ((queues t).eraseP fun p => p.1 == q) t' ↔
      p ∈ queues t' ∧ ¬ (t' = t ∧ p.1 = q) := by
  by_cases ht : t' = t
  · subst ht
    rw [Function.update_self, mem_eraseP fst (hnodup t')]
    simp
  · simp [ht]

/-- The queue iterators stay distinct after an erasure. -/
theorem nodup_update_erase (t : QueueType) (q : QueueIt) (t' : QueueType) :
    ((Function.update queues t ((queues t).eraseP fun p => p.1 == q) t').map fst).Nodup := by
  by_cases ht : t' = t <;> grind

end

/-- The events after one was cancelled. -/
theorem mem_cancel {events : List (EventId × Iter)} (hnodup : (events.map fst).Nodup)
    {event : Option EventId} {p : EventId × Iter} :
    p ∈ cancel events event ↔ p ∈ events ∧ some p.1 ≠ event := by
  unfold cancel
  rcases event with _ | id
  · simp
  · rw [mem_eraseP fst hnodup]
    simp

/-- Cancelling adds no event. -/
theorem cancel_sublist (events : List (EventId × Iter)) (event : Option EventId) :
    (cancel events event).Sublist events := by
  unfold cancel
  grind

/-- Only unsolicited entries go to the first queue. -/
theorem queueTypeOf_eq_unsolicited {now : ℤ} :
    queueTypeOf e now = .unsolicited ↔ e.isUnsolicited = true := by
  unfold queueTypeOf
  split_ifs with hunsolicited hstale <;> simp [hunsolicited]

/-- The queue of an info has its queue iterator. -/
theorem Core.inQueue (h : Core s) (hx : (i, x) ∈ s.entryInfoMap) :
    s.inQueue x.queueType x.queueIt = true := by
  have hmem := (h.queue x.queueType x.queueIt i).mpr ⟨x, hx, rfl, rfl⟩
  unfold PriorityFifo.inQueue
  rw [List.any_eq_true]
  exact ⟨_, hmem, by simp⟩

/-- A queue iterator points to one entry. -/
theorem Core.queue_unique (h : Core s) (hi : (q, i) ∈ s.queues t)
    (hj : (q, j) ∈ s.queues t) : i = j :=
  congrArg snd (inj_on_of_nodup_map (h.queueIts t) hi hj rfl)

/-- An event is for one entry. -/
theorem Core.event_unique (h : Core s) (hi : (id, i) ∈ s.events)
    (hj : (id, j) ∈ s.events) : i = j :=
  congrArg snd (inj_on_of_nodup_map h.events hi hj rfl)

/-! ### Change of one entry info -/

/-- The entry info of one stored entry was set or removed, and the queues and events with it. -/
structure Changed (s s' : PriorityFifo) (i : Iter) (new : Option EntryInfo) : Prop where
  table : s'.table = s.table
  nextIter : s'.nextIter = s.nextIter
  map : ∀ j x, (j, x) ∈ s'.entryInfoMap ↔ j = i ∧ new = some x ∨ (j, x) ∈ s.entryInfoMap ∧ j ≠ i
  keys : s'.keys.Nodup
  queue : ∀ t q j, (q, j) ∈ s'.queues t ↔
    (j = i ∧ ∃ x, new = some x ∧ x.queueType = t ∧ x.queueIt = q) ∨ (q, j) ∈ s.queues t ∧ j ≠ i
  queueIts : ∀ t, ((s'.queues t).map Prod.fst).Nodup
  queueIts_lt : ∀ t, ∀ p ∈ s'.queues t, p.1 < s'.nextQueueIt
  event : ∀ id j, (id, j) ∈ s'.events ↔
    (j = i ∧ ∃ x, new = some x ∧ x.queueType = .fifo ∧ x.moveStaleEventId = some id) ∨
      (id, j) ∈ s.events ∧ j ≠ i
  events : (s'.events.map Prod.fst).Nodup
  events_lt : ∀ p ∈ s'.events, p.1 < s'.nextEvent

section Changed

variable {s' : PriorityFifo} {new : Option EntryInfo}

/-- A change of one info keeps the core. -/
theorem Changed.core (hc : Changed s s' i new) (h : Core s) (hi : i ∈ s.table.iters) : Core s' := by
  refine ⟨?_, ?_, hc.keys, ?_, ?_, hc.queueIts, hc.queueIts_lt, ?_, hc.events, hc.events_lt⟩
  · rw [hc.table]
    exact h.iters
  · rw [hc.table, hc.nextIter]
    exact h.iters_lt
  · grind [hc.table, mem_keys, hc.map, h.keys_stored]
  · grind [hc.queue, h.queue, hc.map]
  · grind [hc.event, h.event, hc.map]

/-- A change of one info keeps the invariant, if the new info fits. -/
theorem Changed.inv (hc : Changed s s' i (some x)) (h : Core s) (hi : i ∈ s.table.iters)
    (hcovered : ∀ j ∈ s.table.iters, j ≠ i → j ∈ s.keys) (hplaced : ∀ j, j ≠ i → Placed s j)
    (hfits : ∀ e, (i, e) ∈ s.table.nodes → Fits x e) : Inv s' := by
  refine ⟨hc.core h hi, ?_, ?_⟩
  · intro j hj
    rw [hc.table] at hj
    by_cases hji : j = i
    · exact mem_keys.mpr ⟨x, (hc.map j x).mpr (.inl ⟨hji, rfl⟩)⟩
    · grind [mem_keys, hc.map]
  intro j y e hy he
  rw [hc.table] at he
  rcases (hc.map j y).mp hy with ⟨rfl, hxy⟩ | ⟨hy, hji⟩
  · rw [← some.inj hxy]
    exact hfits e he
  · exact hplaced j hji y e hy he

/-- If the info is taken away, its entry is the loose one. -/
theorem Changed.isLoose (hc : Changed s s' i none) (h : Core s) (hi : i ∈ s.table.iters)
    (hcovered : ∀ j ∈ s.table.iters, j ∈ s.keys) (hplaced : ∀ j, j ≠ i → Placed s j) :
    Loose s' i := by
  refine ⟨hc.core h hi, ?_, ?_, ?_, ?_⟩
  · rw [hc.table]
    exact hi
  · grind [mem_keys, hc.map]
  · grind [hc.table, mem_keys, hc.map]
  · intro j x e hx he
    rw [hc.table] at he
    rcases (hc.map j x).mp hx with ⟨-, hnone⟩ | ⟨hx, hji⟩
    · cases hnone
    · exact hplaced j hji x e hx he

end Changed

/-- An entry is taken out of the queue it is in. -/
theorem Core.mem_update_erase (h : Core s) (hx : (i, x) ∈ s.entryInfoMap) :
    (q, j) ∈ Function.update s.queues x.queueType
        ((s.queues x.queueType).eraseP fun p => p.1 == x.queueIt) t ↔
      (q, j) ∈ s.queues t ∧ j ≠ i := by
  have hown := (h.queue x.queueType x.queueIt i).mpr ⟨x, hx, rfl, rfl⟩
  rw [PriorityFifo.mem_update_erase h.queueIts, and_congr_right_iff]
  grind [h.queue, h.info_unique, h.queue_unique]

/-- The event of an entry in the FIFO queue is the one of its info. -/
theorem Core.mem_events_and_ne (h : Core s) (hx : (i, x) ∈ s.entryInfoMap)
    (hfifo : x.queueType = .fifo) :
    (id, j) ∈ s.events ∧ j ≠ i ↔ (id, j) ∈ s.events ∧ some id ≠ x.moveStaleEventId := by
  rw [and_congr_right_iff]
  intro hmem
  constructor
  · intro hji hid
    exact hji (h.event_unique hmem ((h.event id i).mpr ⟨x, hx, hfifo, hid.symm⟩))
  · grind [h.event, h.info_unique]

/-- What is in the queues after an append. -/
theorem mem_update_append {α : Type} {f : QueueType → List α} {t t' : QueueType} {a b : α} :
    b ∈ Function.update f t (f t ++ [a]) t' ↔ b ∈ f t' ∨ t' = t ∧ b = a := by
  by_cases ht : t' = t <;> simp_all

/-- The entry info that `attachQueue` creates. -/
def attachedInfo (s : PriorityFifo) (e : CsEntry) (now : ℤ) : EntryInfo :=
  ⟨queueTypeOf e now, s.nextQueueIt, if schedules e now then some s.nextEvent else none⟩

/-- The info that is attached fits the entry. -/
theorem fits_attachedInfo (s : PriorityFifo) (e : CsEntry) (now : ℤ) :
    Fits (s.attachedInfo e now) e := by
  refine ⟨queueTypeOf_eq_unsolicited, ?_⟩
  grind [schedules, attachedInfo]

/-- `attachQueue` gives one info to the loose entry. -/
theorem changed_attachQueue (h : Loose s i) (he : (i, e) ∈ s.table.nodes) (now : ℤ) :
    ∃ s', s.attachQueue i now = some s' ∧ Changed s s' i (some (s.attachedInfo e now)) ∧
      s'.limit = s.limit ∧ s'.evictions = s.evictions := by
  have hqueue : ∀ t q j, (q, j) ∈ s.queues t → j ≠ i := by grind [h.core.queue, h.loose, mem_keys]
  have hevent : ∀ id j, (id, j) ∈ s.events → j ≠ i := by grind [h.core.event, h.loose, mem_keys]
  unfold attachQueue
  simp only [(deref_eq_some_iff h.core.iters).mpr he]
  refine ⟨_, rfl, ⟨rfl, rfl, ?_, h.core.nodup_assignInfo h.stored, ?_,
    nodup_update_append h.core.queueIts h.core.queueIts_lt _ i, ?_, ?_, ?_, ?_⟩, rfl, rfl⟩
  · grind [h.core.mem_assignInfo, h.stored, attachedInfo]
  · intro t q j
    rw [mem_update_append]
    constructor
    · rintro (hmem | ⟨rfl, heq⟩)
      · exact .inr ⟨hmem, hqueue t q j hmem⟩
      · obtain ⟨rfl, rfl⟩ := Prod.mk.inj heq
        exact .inl ⟨rfl, _, rfl, rfl, rfl⟩
    · rintro (⟨rfl, x, hx, rfl, rfl⟩ | ⟨hmem, -⟩)
      · rw [← some.inj hx]
        exact .inr ⟨rfl, rfl⟩
      · exact .inl hmem
  · intro t p hp
    rcases mem_update_append.mp hp with hp | ⟨-, rfl⟩
    · exact Nat.lt_succ_of_lt (h.core.queueIts_lt t p hp)
    · exact Nat.lt_succ_self _
  · grind [schedules, attachedInfo]
  · split_ifs
    · rw [map_append, map_singleton, nodup_append]
      refine ⟨h.core.events, nodup_singleton _, ?_⟩
      intro id hid id' hid'
      obtain rfl := mem_singleton.mp hid'
      obtain ⟨p, hp, rfl⟩ := mem_map.mp hid
      exact (h.core.events_lt p hp).ne
    · exact h.core.events
  · intro p hp
    split_ifs at hp ⊢
    · rcases mem_append.mp hp with hp | hp
      · exact Nat.lt_succ_of_lt (h.core.events_lt p hp)
      · simp_all
    · exact h.core.events_lt p hp

/-- `attachQueue` restores the invariant. -/
theorem Loose.attachQueue (h : Loose s i) (now : ℤ) :
    ∃ s', s.attachQueue i now = some s' ∧ Inv s' ∧ s'.table = s.table ∧ s'.limit = s.limit ∧
      s'.evictions = s.evictions := by
  obtain ⟨e, he⟩ := mem_iters.mp h.stored
  obtain ⟨s', hs', hc, hlimit, hevictions⟩ := changed_attachQueue h he now
  refine ⟨s', hs', ?_, hc.table, hlimit, hevictions⟩
  refine hc.inv h.core h.stored h.covered (fun j _ => h.placed j) ?_
  intro e' he'
  have heq := (deref_eq_some_iff h.core.iters).mpr he'
  rw [(deref_eq_some_iff h.core.iters).mpr he] at heq
  rw [← some.inj heq]
  exact fits_attachedInfo s e now

/-- `detachQueue` takes one info away. -/
theorem changed_detachQueue (h : Core s) (hx : (i, x) ∈ s.entryInfoMap) :
    ∃ s', s.detachQueue i = some s' ∧ Changed s s' i none ∧ s'.limit = s.limit ∧
      s'.evictions = s.evictions := by
  have hi := h.keys_stored i (mem_keys.mpr ⟨x, hx⟩)
  unfold detachQueue
  simp only [(h.entryInfo_eq_some_iff hi).mpr hx, h.inQueue hx, if_true]
  refine ⟨_, rfl, ⟨rfl, rfl, ?_, ?_, ?_, nodup_update_erase h.queueIts _ _, ?_, ?_, ?_, ?_⟩, rfl,
    rfl⟩
  · intro j y
    rw [h.mem_eraseInfo hi]
    simp
  · exact h.keys.sublist (eraseP_sublist.map _)
  · intro t q j
    rw [h.mem_update_erase hx]
    simp
  · intro t p hp
    exact h.queueIts_lt t p ((mem_update_erase h.queueIts).mp hp).1
  · intro id j
    by_cases hfifo : x.queueType = .fifo
    · rw [h.mem_events_and_ne hx hfifo]
      simp [hfifo, mem_cancel h.events]
    · -- without an event of its own the entry is in no event
      grind [h.event, h.info_unique]
  · grind [cancel_sublist, h.events]
  · intro p hp
    split_ifs at hp
    · exact h.events_lt p ((cancel_sublist _ _).subset hp)
    · exact h.events_lt p hp

/-- `detachQueue` makes an entry loose. -/
theorem detachQueue_spec (h : Core s) (hcovered : ∀ j ∈ s.table.iters, j ∈ s.keys)
    (hi : i ∈ s.table.iters) (hplaced : ∀ j, j ≠ i → Placed s j) :
    ∃ s', s.detachQueue i = some s' ∧ Loose s' i ∧ s'.table = s.table ∧ s'.limit = s.limit ∧
      s'.evictions = s.evictions := by
  obtain ⟨x, hx⟩ := mem_keys.mp (hcovered i hi)
  obtain ⟨s', hs', hc, hlimit, hevictions⟩ := changed_detachQueue h hx
  exact ⟨s', hs', hc.isLoose h hi hcovered hplaced, hc.table, hlimit, hevictions⟩

/-! ### Insertion -/

/-- A change of an entry in place keeps the core. -/
theorem Core.modify (h : Core s) (i : Iter) {g : CsEntry → CsEntry}
    (hg : ∀ e, (g e).data = e.data) : Core { s with table := s.table.modify i g hg } := by
  have hiters : (s.table.modify i g hg).iters = s.table.iters := iters_modify
  refine ⟨?_, ?_, h.keys, ?_, h.queue, h.queueIts, h.queueIts_lt, h.event, h.events, h.events_lt⟩
  · rw [hiters]
    exact h.iters
  · rw [hiters]
    exact h.iters_lt
  · rw [hiters]
    exact h.keys_stored

/-- Data that is stored already is refreshed. -/
theorem insertOld_spec (h : Inv s) (hi : i ∈ s.table.iters) (isUnsolicited : Bool) (now later : ℤ) :
    ∃ s', s.insertOld i isUnsolicited now later = some s' ∧ Inv s' ∧ s'.size = s.size ∧
      s'.limit = s.limit ∧ s'.evictions = s.evictions := by
  have hiters : (s.table.modify i (refresh isUnsolicited now)
      (data_refresh isUnsolicited now)).iters = s.table.iters := iters_modify
  obtain ⟨s₁, hs₁, hloose, htable, hlimit, hevictions⟩ :=
    detachQueue_spec (h.core.modify i (data_refresh isUnsolicited now)) (by
      rw [hiters]
      exact h.covered) (by rwa [hiters]) (by
      intro j hji y e' hy he'
      obtain ⟨e, he, rfl⟩ := (mem_modify (data_refresh isUnsolicited now)).mp he'
      rw [if_neg hji]
      exact h.placed j y e hy he)
  obtain ⟨s₂, hs₂, hinv, htable', hlimit', hevictions'⟩ := hloose.attachQueue later
  refine ⟨s₂, ?_, hinv, ?_, hlimit'.trans hlimit, hevictions'.trans hevictions⟩
  · unfold insertOld
    simp [hs₁, hs₂]
  · unfold size
    rw [htable', htable]
    exact length_map ..

/-- A new node is the loose one. -/
theorem Inv.insertNode (h : Inv s) {e : CsEntry} (hnew : s.table.same e.data = none) :
    Loose { s with table := s.table.insertNode s.nextIter e hnew, nextIter := s.nextIter + 1 }
      s.nextIter := by
  have hperm : (s.table.insertNode s.nextIter e hnew).iters.Perm (s.nextIter :: s.table.iters) :=
    iters_insertNode_perm hnew
  have hmem : ∀ j, j ∈ (s.table.insertNode s.nextIter e hnew).iters ↔
      j = s.nextIter ∨ j ∈ s.table.iters := by
    intro j
    rw [hperm.mem_iff, mem_cons]
  have hfresh : s.nextIter ∉ s.table.iters := fun hmem => lt_irrefl _ (h.core.iters_lt _ hmem)
  have hnokey : s.nextIter ∉ s.keys := fun hmem => hfresh (h.core.keys_stored _ hmem)
  refine ⟨⟨?_, ?_, h.core.keys, ?_, h.core.queue, h.core.queueIts, h.core.queueIts_lt, h.core.event,
    h.core.events, h.core.events_lt⟩, ?_, hnokey, ?_, ?_⟩
  · rw [hperm.nodup_iff, nodup_cons]
    exact ⟨hfresh, h.core.iters⟩
  · intro j hj
    rcases (hmem j).mp hj with rfl | hj
    · exact Nat.lt_succ_self _
    · exact Nat.lt_succ_of_lt (h.core.iters_lt j hj)
  · intro j hj
    exact (hmem j).mpr (.inr (h.core.keys_stored j hj))
  · exact (hmem _).mpr (.inl rfl)
  · intro j hj hne
    exact h.covered j (((hmem j).mp hj).resolve_left hne)
  · intro j y e' hy he'
    rcases mem_cons.mp ((nodes_insertNode_perm hnew).mem_iff.mp he') with heq | he'
    · grind [mem_keys]
    · exact h.placed j y e' hy he'

/-! ### Eviction -/

/-- The evicted entry was the first one of the first queue that was not empty. -/
def Eviction.FromFront : Eviction → Prop
  | ⟨i :: _, _, _, entry⟩ => entry = i
  | ⟨[], i :: _, _, entry⟩ => entry = i
  | ⟨[], [], fifo, entry⟩ => fifo.head? = some entry

/-- The evicted entry is the front of the first queue that is not empty. -/
theorem fromFront_of_front (h : s.front = some i) :
    Eviction.FromFront ⟨s.queue .unsolicited, s.queue .stale, s.queue .fifo, i⟩ := by
  unfold front at h
  rcases hu : s.queue .unsolicited with _ | ⟨u, us⟩
  · rcases hst : s.queue .stale with _ | ⟨st, sts⟩
    · have heq : (s.queue .fifo).head? = some i := by simpa [hu, hst] using h
      exact heq
    · have heq : st = i := by simpa [hu, hst] using h
      exact heq.symm
  · have heq : u = i := by simpa [hu] using h
    exact heq.symm

/-- The front is in a queue. -/
theorem mem_queue_of_front (h : s.front = some i) : ∃ t, i ∈ s.queue t := by
  unfold front at h
  rw [or_eq_some_iff, or_eq_some_iff] at h
  rcases h with (h | ⟨-, h⟩) | ⟨-, h⟩
  · exact ⟨_, mem_of_mem_head? h⟩
  · exact ⟨_, mem_of_mem_head? h⟩
  · exact ⟨_, mem_of_mem_head? h⟩

/-- The entries of a queue. -/
theorem mem_queue : i ∈ s.queue t ↔ ∃ q, (q, i) ∈ s.queues t := by
  simp [queue]

/-- Entries in queues are stored. -/
theorem Core.stored_of_mem_queue (h : Core s) (hi : i ∈ s.queue t) : i ∈ s.table.iters := by
  obtain ⟨q, hq⟩ := mem_queue.mp hi
  obtain ⟨x, hx, -⟩ := (h.queue t q i).mp hq
  exact h.keys_stored i (mem_keys.mpr ⟨x, hx⟩)

/-- A table that is not empty has a front. -/
theorem Inv.exists_front (h : Inv s) (hpos : 0 < s.size) : ∃ i, s.front = some i := by
  obtain ⟨p, hp⟩ := exists_mem_of_length_pos hpos
  obtain ⟨x, hx⟩ := mem_keys.mp (h.covered p.1 (mem_map_of_mem hp))
  have hmem : p.1 ∈ s.queue x.queueType :=
    mem_queue.mpr ⟨_, (h.core.queue _ _ _).mpr ⟨x, hx, rfl, rfl⟩⟩
  obtain ⟨y, ys, hy⟩ := exists_cons_of_ne_nil (ne_nil_of_mem hmem)
  unfold front
  rcases ht : x.queueType with _ | _ | _ <;> rw [ht] at hy <;> simp [hy]

/-- Erasing the loose entry restores the invariant. -/
theorem Loose.eraseNode (h : Loose s i) :
    ∃ s', s.eraseNode i = some s' ∧ Inv s' ∧ s'.size + 1 = s.size ∧ s'.limit = s.limit ∧
      s'.evictions = s.evictions := by
  obtain ⟨e, he⟩ := mem_iters.mp h.stored
  have hiters := fun j => mem_iters_erase (i := i) (j := j) h.core.iters
  unfold PriorityFifo.eraseNode
  simp only [(deref_eq_some_iff h.core.iters).mpr he]
  refine ⟨_, rfl, ⟨⟨nodup_iters_erase h.core.iters, ?_, h.core.keys, ?_, h.core.queue,
    h.core.queueIts, h.core.queueIts_lt, h.core.event, h.core.events, h.core.events_lt⟩, ?_, ?_⟩,
    length_erase h.stored, rfl, rfl⟩
  · intro j hj
    exact h.core.iters_lt j ((hiters j).mp hj).1
  · intro j hj
    refine (hiters j).mpr ⟨h.core.keys_stored j hj, ?_⟩
    rintro rfl
    exact h.loose hj
  · intro j hj
    obtain ⟨hj, hne⟩ := (hiters j).mp hj
    exact h.covered j hj hne
  · intro j y e' hy he'
    exact h.placed j y e' hy ((mem_erase h.core.iters).mp he').1

/-- The list of evictions does not matter for the invariant. -/
theorem Loose.withEvictions (h : Loose s i) (evictions : List Eviction) :
    Loose { s with evictions := evictions } i :=
  ⟨⟨h.core.iters, h.core.iters_lt, h.core.keys, h.core.keys_stored, h.core.queue, h.core.queueIts,
    h.core.queueIts_lt, h.core.event, h.core.events, h.core.events_lt⟩, h.stored, h.loose,
      h.covered,
    h.placed⟩

/-- One eviction takes one entry, from the front. -/
theorem evictOne_spec (h : Inv s) (hpos : 0 < s.size)
    (hfront : ∀ v ∈ s.evictions, Eviction.FromFront v) :
    ∃ s', s.evictOne = some s' ∧ Inv s' ∧ s'.size + 1 = s.size ∧ s'.limit = s.limit ∧
      ∀ v ∈ s'.evictions, Eviction.FromFront v := by
  obtain ⟨i, hi⟩ := h.exists_front hpos
  obtain ⟨t, ht⟩ := mem_queue_of_front hi
  obtain ⟨s₁, hs₁, hloose, htable, hlimit, hevictions⟩ :=
    detachQueue_spec h.core h.covered (h.core.stored_of_mem_queue ht) fun j _ => h.placed j
  obtain ⟨s₂, hs₂, hinv, hsize, hlimit', hevictions'⟩ := (hloose.withEvictions (s₁.evictions ++
    [⟨s.queue .unsolicited, s.queue .stale, s.queue .fifo, i⟩])).eraseNode
  grind [evictOne, size, fromFront_of_front]

/-- The loop evicts down to the limit. -/
theorem evictLoop_spec (k : ℕ) : ∀ {s : PriorityFifo}, Inv s → s.size ≤ k →
    (∀ v ∈ s.evictions, Eviction.FromFront v) →
    ∃ s', evictLoop k s = some s' ∧ Inv s' ∧ s'.size ≤ s'.limit ∧
      ∀ v ∈ s'.evictions, Eviction.FromFront v := by
  induction k with
  | zero => grind [evictLoop]
  | succ k ih =>
    intro s h hk hfront
    unfold evictLoop
    by_cases hfull : s.limit < s.size
    · obtain ⟨s₁, hs₁, hinv, hsize, -, hfront'⟩ := evictOne_spec h (by omega) hfront
      grind
    · rw [if_neg hfull]
      exact ⟨s, rfl, h, by omega, hfront⟩

/-! ### Timers -/

/-- The entry info after the timer expired. -/
def EntryInfo.moved (x : EntryInfo) (q : QueueIt) : EntryInfo :=
  { x with queueType := .stale, queueIt := q }

/-- `moveToStaleQueue` changes one info. -/
theorem changed_moveToStaleQueue (h : Core s) (hx : (i, x) ∈ s.entryInfoMap)
    (hfifo : x.queueType = .fifo) (hid : x.moveStaleEventId = some id) :
    ∃ s', moveToStaleQueue { s with events := s.events.eraseP fun p => p.1 == id } i = some s' ∧
      Changed s s' i (some (x.moved s.nextQueueIt)) ∧ s'.limit = s.limit ∧
        s'.evictions = s.evictions := by
  have hi := h.keys_stored i (mem_keys.mpr ⟨x, hx⟩)
  have hinfo : entryInfo
      { s with events := s.events.eraseP fun p => p.1 == id } i = some x :=
    (h.entryInfo_eq_some_iff hi).mpr hx
  have hin : inQueue
      { s with events := s.events.eraseP fun p => p.1 == id } .fifo x.queueIt = true :=
    hfifo ▸ h.inQueue hx
  unfold moveToStaleQueue
  simp only [hinfo, hin, if_true]
  refine ⟨_, rfl, ⟨rfl, rfl, ?_, h.nodup_assignInfo hi, ?_, ?_, ?_, ?_, ?_, ?_⟩, rfl, rfl⟩
  · intro j y
    refine (h.mem_assignInfo hi).trans ?_
    rw [Prod.mk.injEq]
    simp [EntryInfo.moved, eq_comm]
  · intro t q j
    rw [mem_update_append, ← hfifo, h.mem_update_erase hx]
    constructor
    · rintro (hmem | ⟨rfl, heq⟩)
      · exact .inr hmem
      · obtain ⟨rfl, rfl⟩ := Prod.mk.inj heq
        exact .inl ⟨rfl, _, rfl, rfl, rfl⟩
    · rintro (⟨rfl, y, hy, rfl, rfl⟩ | hmem)
      · rw [← some.inj hy]
        exact .inr ⟨rfl, rfl⟩
      · exact .inl hmem
  · refine nodup_update_append (nodup_update_erase h.queueIts _ _) ?_ _ i
    intro t p hp
    exact h.queueIts_lt t p ((mem_update_erase h.queueIts).mp hp).1
  · intro t p hp
    rcases mem_update_append.mp hp with hp | ⟨-, rfl⟩
    · exact Nat.lt_succ_of_lt
        (h.queueIts_lt t p ((mem_update_erase h.queueIts).mp hp).1)
    · exact Nat.lt_succ_self _
  · intro id' j
    rw [h.mem_events_and_ne hx hfifo, hid, mem_eraseP Prod.fst h.events]
    constructor
    · simp_all
    · rintro (⟨-, y, hy, hyfifo, -⟩ | ⟨hmem, hne⟩)
      · rw [← some.inj hy] at hyfifo
        cases hyfifo
      · exact ⟨hmem, fun heq => hne (congrArg some heq)⟩
  · exact h.events.sublist (eraseP_sublist.map _)
  · intro p hp
    exact h.events_lt p (mem_of_mem_eraseP hp)

/-- An event that fires keeps the invariant. -/
theorem expire_spec (h : Inv s) (id : EventId) :
    ∃ s', s.expire id = some s' ∧ Inv s' ∧ s'.size = s.size ∧ s'.limit = s.limit ∧
      s'.evictions = s.evictions := by
  unfold expire
  rcases hfind : s.events.find? (fun p => p.1 == id) with _ | ⟨id', i⟩
  · simp only [hfind]
    exact ⟨s, rfl, h, rfl, rfl, rfl⟩
  obtain ⟨hmem, rfl⟩ := (find?_eq_some_iff fst h.core.events).mp hfind
  obtain ⟨x, hx, hfifo, hid⟩ := (h.core.event id' i).mp hmem
  have hi := h.core.keys_stored i (mem_keys.mpr ⟨x, hx⟩)
  obtain ⟨s', hs', hc, hlimit, hevictions⟩ := changed_moveToStaleQueue h.core hx hfifo hid
  simp only [hfind]
  refine ⟨s', hs', ?_, by rw [size, hc.table]; rfl, hlimit, hevictions⟩
  refine hc.inv h.core hi (fun j hj _ => h.covered j hj) (fun j _ => h.placed j) ?_
  intro e he
  have hsolicited := (h.placed i x e hx he).1
  rw [hfifo] at hsolicited
  refine ⟨⟨nofun, ?_⟩, nofun⟩
  intro hunsolicited
  cases hsolicited.mpr hunsolicited

/-! ### Runs -/

/-- The state of the content store and its policy between two operations. -/
structure WellKept (s : PriorityFifo) : Prop where
  /-- Each stored entry is once in one queue, which is the first one just for unsolicited Data. -/
  one_queue : ∀ i e, (i, e) ∈ s.table.nodes → ∃ t,
    (∀ t', (s.queue t').count i = if t' = t then 1 else 0) ∧
      (t = .unsolicited ↔ e.isUnsolicited = true)
  /-- Nothing else is in a queue. -/
  stored : ∀ t, ∀ i ∈ s.queue t, ∃ e, (i, e) ∈ s.table.nodes
  /-- An event is pending just for the entries of the FIFO queue that can become stale. -/
  pending : ∀ i, i ∈ s.events.map Prod.snd ↔
    i ∈ s.queue .fifo ∧ ∃ e, (i, e) ∈ s.table.nodes ∧ e.canStale = true
  /-- No entry has two events. -/
  one_event : (s.events.map Prod.snd).Nodup
  size_le : s.size ≤ s.limit
  /-- Every entry evicted so far was the front of the first queue that was not empty. -/
  evicted : ∀ v ∈ s.evictions, Eviction.FromFront v

/-- The entries of a queue are distinct. -/
theorem Core.nodup_queue (h : Core s) (t : QueueType) : (s.queue t).Nodup := by
  refine Nodup.map_on ?_ (Nodup.of_map _ (h.queueIts t))
  grind [h.queue, h.info_unique]

/-- An entry is in the queue of its info. -/
theorem Core.mem_queue_iff (h : Core s) (hx : (i, x) ∈ s.entryInfoMap) :
    i ∈ s.queue t ↔ x.queueType = t := by
  rw [mem_queue]
  constructor
  · grind [h.queue, h.info_unique]
  · rintro rfl
    exact ⟨_, (h.queue _ _ _).mpr ⟨x, hx, rfl, rfl⟩⟩

/-- The invariant and the limit give what should hold. -/
theorem Inv.wellKept (h : Inv s) (hsize : s.size ≤ s.limit)
    (hfront : ∀ v ∈ s.evictions, Eviction.FromFront v) : WellKept s := by
  refine ⟨?_, ?_, ?_, ?_, hsize, hfront⟩
  · intro i e he
    obtain ⟨x, hx⟩ := mem_keys.mp (h.covered i (mem_iters.mpr ⟨e, he⟩))
    refine ⟨x.queueType, ?_, (h.placed i x e hx he).1⟩
    intro t
    rw [List.Nodup.count (h.core.nodup_queue t)]
    simp only [h.core.mem_queue_iff hx, eq_comm]
  · intro t i hi
    exact mem_iters.mp (h.core.stored_of_mem_queue hi)
  · intro i
    rw [List.mem_map]
    constructor
    · rintro ⟨⟨id, i⟩, hmem, rfl⟩
      obtain ⟨x, hx, hfifo, hid⟩ := (h.core.event id i).mp hmem
      obtain ⟨e, he⟩ := mem_iters.mp (h.core.keys_stored i (mem_keys.mpr ⟨x, hx⟩))
      refine ⟨(h.core.mem_queue_iff hx).mpr hfifo, e, he, ?_⟩
      exact ((h.placed i x e hx he).2 hfifo).mp (by rw [hid]; rfl)
    rintro ⟨hi, e, he, hstale⟩
    obtain ⟨x, hx⟩ := mem_keys.mp (h.covered i (mem_iters.mpr ⟨e, he⟩))
    have hfifo := (h.core.mem_queue_iff hx).mp hi
    obtain ⟨id, hid⟩ := isSome_iff_exists.mp (((h.placed i x e hx he).2 hfifo).mpr hstale)
    exact ⟨(id, i), (h.core.event id i).mpr ⟨x, hx, hfifo, hid⟩, rfl⟩
  · refine List.Nodup.map_on ?_ (List.Nodup.of_map _ h.core.events)
    grind [h.core.event, h.core.info_unique]

/-- What holds between two operations. -/
structure Ready (s : PriorityFifo) : Prop where
  inv : Inv s
  size_le : s.size ≤ s.limit
  evicted : ∀ v ∈ s.evictions, Eviction.FromFront v

/-- A new policy is ready. -/
theorem ready_create (nMaxPackets : ℕ) : Ready (create nMaxPackets) := by
  refine ⟨⟨⟨nodup_nil, nofun, nodup_nil, nofun, ?_, fun _ => nodup_nil, nofun, ?_,
    nodup_nil, nofun⟩, nofun, nofun⟩, Nat.zero_le _, nofun⟩
  · intro t q i
    simp [create]
  · intro id i
    simp [create]

/-- `evictEntries` leaves the policy ready. -/
theorem Inv.evictEntries (h : Inv s) (hfront : ∀ v ∈ s.evictions, Eviction.FromFront v) :
    ∃ s', s.evictEntries = some s' ∧ Ready s' := by
  obtain ⟨s', hs', hinv, hsize, hfront'⟩ := evictLoop_spec s.size h le_rfl hfront
  exact ⟨s', hs', hinv, hsize, hfront'⟩

/-- An insertion leaves the policy ready. -/
theorem insert_spec (h : Ready s) (d : Data) (isUnsolicited : Bool) (now later : ℤ) :
    ∃ s', s.insert d isUnsolicited now later = some s' ∧ Ready s' := by
  unfold insert
  by_cases hcache : d.noCache = true
  · rw [if_pos hcache]
    exact ⟨s, rfl, h⟩
  rw [if_neg hcache]
  split
  · rename_i i hsame
    obtain ⟨p, hp, rfl⟩ := map_eq_some_iff.mp hsame
    have hi : p.1 ∈ s.table.iters := mem_map_of_mem (mem_of_find?_eq_some hp)
    obtain ⟨s', hs', hinv, hsize, hlimit, hevictions⟩ :=
      insertOld_spec h.inv hi isUnsolicited now later
    refine ⟨s', hs', hinv, ?_, ?_⟩ <;> grind [h.size_le, h.evicted]
  · rename_i hnew
    have hinserted :=
      h.inv.insertNode (e := CsEntry.updateStaleTime ⟨d, isUnsolicited, none⟩ now) hnew
    obtain ⟨s₁, hs₁, hinv, -, -, hevictions⟩ := hinserted.attachQueue later
    simp_all [hinv.evictEntries, h.evicted, insertNew]

/-- A lookup changes nothing. -/
theorem find_spec (h : Ready s) (i : Interest) (now : ℤ) : s.find i now = some s := by
  unfold find
  rcases hlookup : s.lookup i now with fault | _ | it
  · rfl
  · rfl
  · have hit : it ∈ s.table.iters := by
      unfold lookup at hlookup
      rcases hmatch : s.table.toCs.findMatch i now with fault | r
      · rw [hmatch] at hlookup
        cases hlookup
      rw [hmatch] at hlookup
      have hnode : (if r.1 = r.2 then none else (s.table.nodes[r.1]?).map fst) = some it :=
        Except.ok.inj hlookup
      split_ifs at hnode
      obtain ⟨p, hp, rfl⟩ := map_eq_some_iff.mp hnode
      exact mem_map_of_mem (mem_of_getElem? hp)
    obtain ⟨x, hx⟩ := mem_keys.mp (h.inv.covered it hit)
    simp [(h.inv.core.entryInfo_eq_some_iff hit).mpr hx]

/-- Every operation leaves the policy ready. -/
theorem apply_spec (h : Ready s) (op : Op) : ∃ s', s.apply op = some s' ∧ Ready s' := by
  cases op with
  | insert d isUnsolicited now later => exact insert_spec h d isUnsolicited now later
  | find i now => exact ⟨s, find_spec h i now, h⟩
  | setLimit nMaxPackets =>
    have hinv : Inv { s with limit := nMaxPackets } :=
      ⟨⟨h.inv.core.iters, h.inv.core.iters_lt, h.inv.core.keys, h.inv.core.keys_stored,
        h.inv.core.queue, h.inv.core.queueIts, h.inv.core.queueIts_lt, h.inv.core.event,
        h.inv.core.events, h.inv.core.events_lt⟩, h.inv.covered, h.inv.placed⟩
    exact hinv.evictEntries h.evicted
  | expire event =>
    obtain ⟨s', hs', hinv, hsize, hlimit, hevictions⟩ := expire_spec h.inv event
    refine ⟨s', hs', hinv, ?_, ?_⟩
    · rw [hsize, hlimit]
      exact h.size_le
    · rw [hevictions]
      exact h.evicted

/-- Every run leaves the policy ready. -/
theorem run_spec (ops : List Op) : ∀ {s : PriorityFifo}, Ready s →
    ∃ s', s.run ops = some s' ∧ Ready s' := by
  induction ops with
  | nil =>
    intro s h
    exact ⟨s, rfl, h⟩
  | cons op ops ih =>
    intro s h
    obtain ⟨s₁, hs₁, h₁⟩ := apply_spec h op
    grind [run]

end PriorityFifo

end IcnDemo
