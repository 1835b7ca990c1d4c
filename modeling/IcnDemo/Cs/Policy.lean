import IcnDemo.Cs.Range

/-!
# The content store with its policy

The table of the content store is a `std::set`, whose iterators stay valid until their entry is
erased; the policy keeps iterators in three queues, in a map of entry infos and in the events that
move an entry to the stale queue.  An iterator is the address of a node of the table, a position in
a queue the address of a node of a list, so that a pointer to something erased is noticed.

An operation that follows a null pointer or a dangling one is `none`.  `evictions` records for each
evicted entry what was in the queues then; nothing reads it.
-/

namespace IcnDemo

/-- `EntryImpl::canStale`: the time when the entry becomes stale is before the latest point of
time. -/
def CsEntry.canStale (e : CsEntry) : Bool :=
  match e.staleTime with
  | none => false
  | some t => decide (t < 2 ^ 63 - 1)

/-- `EntryImpl::unsetUnsolicited`. -/
def CsEntry.unsetUnsolicited (e : CsEntry) (now : ℤ) : CsEntry :=
  { e with isUnsolicited := false }.updateStaleTime now

/-! ### The table -/

/-- Address of a node of the table, as an iterator holds it. -/
abbrev Cs.Iter := ℕ

/-- The table as an ordered set with iterators. -/
structure CsTable where
  nodes : List (Cs.Iter × CsEntry)
  sorted : nodes.Pairwise fun p q => compareDataWithData p.2.data q.2.data = .lt

namespace CsTable

open Cs

/-- An empty table. -/
def empty : CsTable := ⟨[], List.Pairwise.nil⟩

variable (T : CsTable) (i : Iter)

/-- Follow an iterator. -/
def deref : Option CsEntry :=
  (T.nodes.find? fun p => p.1 == i).map Prod.snd

/-- The table that the lookups see. -/
def toCs : Cs :=
  ⟨T.nodes.map Prod.snd, List.pairwise_map.mpr T.sorted⟩

/-- The node with the same name and digest, if there is one. -/
def same (d : Data) : Option Iter :=
  (T.nodes.find? fun p => compareDataWithData p.2.data d == .eq).map Prod.fst

/-- Change an entry, but not its Data. -/
def modify (g : CsEntry → CsEntry) (hg : ∀ e, (g e).data = e.data) :
    CsTable where
  nodes := T.nodes.map fun p => if p.1 = i then (p.1, g p.2) else p
  sorted := by
    refine List.pairwise_map.mpr (T.sorted.imp ?_)
    intro p q hlt
    have hdata : ∀ p : Iter × CsEntry, (if p.1 = i then (p.1, g p.2) else p).2.data = p.2.data := by
      intro p
      split_ifs
      · exact hg p.2
      · rfl
    rw [hdata, hdata]
    exact hlt

/-- `std::set::erase`. -/
def erase : CsTable :=
  ⟨T.nodes.eraseP fun p => p.1 == i, T.sorted.sublist List.eraseP_sublist⟩

/-- A new node is put behind the smaller entries. -/
def insertNode (e : CsEntry) (hnew : T.same e.data = none) : CsTable where
  nodes := T.nodes.takeWhile (fun p => compareDataWithData p.2.data e.data == .lt) ++
    (i, e) :: T.nodes.dropWhile fun p => compareDataWithData p.2.data e.data == .lt
  sorted := by
    refine SortedTable.pairwise_insert comparePairs (fun p : Iter × CsEntry => pairOf p.2.data)
      (a := (i, e)) T.sorted ?_
    intro p hp heq
    rw [same, Option.map_eq_none_iff, List.find?_eq_none] at hnew
    exact hnew p hp (by rw [compareDataWithData_eq, heq]; rfl)

end CsTable

/-! ### The policy -/

namespace PriorityFifo

/-- `priority_fifo::QueueType`. -/
inductive QueueType where
  | unsolicited
  | stale
  | fifo
deriving DecidableEq, Repr

/-- Address of a node of a queue. -/
abbrev QueueIt := ℕ

/-- `scheduler::EventId`. -/
abbrev EventId := ℕ

/-- `priority_fifo::EntryInfo`. -/
structure EntryInfo where
  queueType : QueueType
  queueIt : QueueIt
  moveStaleEventId : Option EventId
deriving DecidableEq, Repr

/-- An eviction: the queues before it, and the entry. -/
structure Eviction where
  unsolicited : List Cs.Iter
  stale : List Cs.Iter
  fifo : List Cs.Iter
  entry : Cs.Iter

end PriorityFifo

open PriorityFifo Cs

/-- `cs::Cs` with a `PriorityFifoPolicy`, and the events that wait to call `moveToStaleQueue`. -/
structure PriorityFifo where
  table : CsTable
  nextIter : Iter
  limit : ℕ
  queues : QueueType → List (QueueIt × Iter)
  nextQueueIt : QueueIt
  entryInfoMap : List (Iter × EntryInfo)
  events : List (EventId × Iter)
  nextEvent : EventId
  evictions : List Eviction

namespace PriorityFifo

variable (s : PriorityFifo) (i : Iter) (isUnsolicited : Bool)

/-- `Cs::size`. -/
def size : ℕ :=
  s.table.nodes.length

/-! ### The map of entry infos -/

/-- Neither of two iterators is less than the other for `EntryItComparator`. -/
def equivalent (j : Iter) : Bool :=
  match s.table.deref i, s.table.deref j with
  | some e, some e' => compareDataWithData e.data e'.data == .eq
  | _, _ => false

/-- `m_entryInfoMap[i]` of an entry that is in the map. -/
def entryInfo : Option EntryInfo :=
  (s.entryInfoMap.find? fun p => s.equivalent p.1 i).map Prod.snd

/-- The map after `m_entryInfoMap[i] = entryInfo`. -/
def assignInfo (info : EntryInfo) : List (Iter × EntryInfo) :=
  match s.entryInfoMap.findIdx? fun p => s.equivalent p.1 i with
  | none => s.entryInfoMap ++ [(i, info)]
  | some k => s.entryInfoMap.modify k fun p => (p.1, info)

/-- The map after `m_entryInfoMap.erase(i)`. -/
def eraseInfo : List (Iter × EntryInfo) :=
  s.entryInfoMap.eraseP fun p => s.equivalent p.1 i

/-! ### Queues -/

variable (now : ℤ) (e : CsEntry)

/-- The queue that `attachQueue` chooses. -/
def queueTypeOf (now : ℤ) : QueueType :=
  if e.isUnsolicited then .unsolicited else if e.isStale now then .stale else .fifo

/-- Does `attachQueue` schedule an event? -/
def schedules (now : ℤ) : Bool :=
  queueTypeOf e now == .fifo && e.canStale

/-- `PriorityFifoPolicy::attachQueue`. -/
def attachQueue : Option PriorityFifo :=
  match s.table.deref i with
  | none => none
  | some e =>
    let t := queueTypeOf e now
    some { s with
      queues := Function.update s.queues t (s.queues t ++ [(s.nextQueueIt, i)])
      nextQueueIt := s.nextQueueIt + 1
      entryInfoMap := s.assignInfo i
        ⟨t, s.nextQueueIt, if schedules e now then some s.nextEvent else none⟩
      events := if schedules e now then s.events ++ [(s.nextEvent, i)] else s.events
      nextEvent := if schedules e now then s.nextEvent + 1 else s.nextEvent }

/-- `scheduler::cancel`; an event that is not pending any more is left alone. -/
def cancel (events : List (EventId × Iter)) (event : Option EventId) : List (EventId × Iter) :=
  match event with
  | none => events
  | some id => events.eraseP fun p => p.1 == id

/-- Is there a node with this address in a queue? -/
def inQueue (t : QueueType) (q : QueueIt) : Bool :=
  (s.queues t).any fun p => p.1 == q

/-- `PriorityFifoPolicy::detachQueue`. -/
def detachQueue : Option PriorityFifo :=
  match s.entryInfo i with
  | none => none
  | some info =>
    if s.inQueue info.queueType info.queueIt then
      some { s with
        events := if info.queueType = .fifo then cancel s.events info.moveStaleEventId else s.events
        queues := Function.update s.queues info.queueType
          ((s.queues info.queueType).eraseP fun p => p.1 == info.queueIt)
        entryInfoMap := s.eraseInfo i }
    else none

/-- `PriorityFifoPolicy::moveToStaleQueue`. -/
def moveToStaleQueue : Option PriorityFifo :=
  match s.entryInfo i with
  | none => none
  | some info =>
    if s.inQueue .fifo info.queueIt then
      let queues := Function.update s.queues .fifo
        ((s.queues .fifo).eraseP fun p => p.1 == info.queueIt)
      some { s with
        queues := Function.update queues .stale (queues .stale ++ [(s.nextQueueIt, i)])
        nextQueueIt := s.nextQueueIt + 1
        entryInfoMap := s.assignInfo i { info with queueType := .stale, queueIt := s.nextQueueIt } }
    else none

/-! ### Eviction -/

/-- The iterators in a queue. -/
def queue (t : QueueType) : List Iter :=
  (s.queues t).map Prod.snd

/-- The entry that `evictOne` chooses. -/
def front : Option Iter :=
  ((s.queue .unsolicited).head?.or (s.queue .stale).head?).or (s.queue .fifo).head?

/-- The handler of `beforeEvict`: erase the entry from the table. -/
def eraseNode : Option PriorityFifo :=
  match s.table.deref i with
  | none => none
  | some _ => some { s with table := s.table.erase i }

/-- `PriorityFifoPolicy::evictOne`. -/
def evictOne : Option PriorityFifo :=
  match s.front with
  | none => none
  | some i =>
    let eviction : Eviction := ⟨s.queue .unsolicited, s.queue .stale, s.queue .fifo, i⟩
    (s.detachQueue i).bind fun s =>
      { s with evictions := s.evictions ++ [eviction] }.eraseNode i

/-- The loop of `PriorityFifoPolicy::evictEntries`; each round erases one entry. -/
def evictLoop : ℕ → PriorityFifo → Option PriorityFifo
  | 0, s => if s.limit < s.size then none else some s
  | k + 1, s => if s.limit < s.size then s.evictOne.bind (evictLoop k) else some s

/-- `PriorityFifoPolicy::evictEntries`. -/
def evictEntries : Option PriorityFifo :=
  evictLoop s.size s

/-! ### Operations -/

/-- What `Cs::insert` does to an entry that is there. -/
def refresh : CsEntry :=
  if e.isUnsolicited && !isUnsolicited then (e.updateStaleTime now).unsetUnsolicited now
  else e.updateStaleTime now

/-- A refreshed entry has the same Data. -/
theorem data_refresh : (refresh isUnsolicited now e).data = e.data := by
  unfold refresh
  split <;> rfl

/-- `Cs::insert` of a Data that may be cached and is in the table. -/
def insertOld (later : ℤ) : Option PriorityFifo :=
  let s := { s with
    table := s.table.modify i (refresh isUnsolicited now) (data_refresh isUnsolicited now) }
  (s.detachQueue i).bind fun s => s.attachQueue i later

/-- `Cs::insert` of a Data that may be cached and is not in the table. -/
def insertNew (d : Data) (isUnsolicited : Bool) (now later : ℤ)
    (hnew : s.table.same d = none) : Option PriorityFifo :=
  let e : CsEntry := CsEntry.updateStaleTime ⟨d, isUnsolicited, none⟩ now
  let i := s.nextIter
  let s := { s with table := s.table.insertNode i e hnew, nextIter := s.nextIter + 1 }
  (s.attachQueue i later).bind evictEntries

/-- `Cs::insert`; the clock is read when the stale time is set and again for the choice of the
queue. -/
def insert (d : Data) (isUnsolicited : Bool) (now later : ℤ) : Option PriorityFifo :=
  if d.noCache then some s
  else
    match h : s.table.same d with
    | some i => s.insertOld i isUnsolicited now later
    | none => s.insertNew d isUnsolicited now later h

/-- `Cs::setLimit`. -/
def setLimit (nMaxPackets : ℕ) : Option PriorityFifo :=
  { s with limit := nMaxPackets }.evictEntries

/-- The iterator that `Cs::find` arrives at, unless it misses. -/
def lookup (i : Interest) (now : ℤ) : Except CsFault (Option Iter) :=
  (s.table.toCs.findMatch i now).map fun r =>
    if r.1 = r.2 then none else (s.table.nodes[r.1]?).map Prod.fst

/-- `Cs::find` calls `beforeUse` for a hit, which asserts that the entry is in the map.  A lookup
changes nothing. -/
def find (i : Interest) (now : ℤ) : Option PriorityFifo :=
  match s.lookup i now with
  | .ok (some it) => if (s.entryInfo it).isSome then some s else none
  | _ => some s

/-- A timer expires: the scheduler takes the event out of its queue and calls
`moveToStaleQueue`. -/
def expire (event : EventId) : Option PriorityFifo :=
  match s.events.find? fun p => p.1 == event with
  | none => some s
  | some p => { s with events := s.events.eraseP fun p => p.1 == event }.moveToStaleQueue p.2

/-- The constructor. -/
def create (nMaxPackets : ℕ) : PriorityFifo where
  table := .empty
  nextIter := 0
  limit := nMaxPackets
  queues := fun _ => []
  nextQueueIt := 0
  entryInfoMap := []
  events := []
  nextEvent := 0
  evictions := []

/-- The operations of a run. -/
inductive Op where
  | insert (d : Data) (isUnsolicited : Bool) (now later : ℤ)
  | find (i : Interest) (now : ℤ)
  | setLimit (nMaxPackets : ℕ)
  | expire (event : EventId)

/-- The effect of an operation. -/
def apply : Op → Option PriorityFifo
  | .insert d isUnsolicited now later => s.insert d isUnsolicited now later
  | .find i now => s.find i now
  | .setLimit nMaxPackets => s.setLimit nMaxPackets
  | .expire event => s.expire event

/-- The state after a run. -/
def run (s : PriorityFifo) : List Op → Option PriorityFifo
  | [] => some s
  | op :: ops => (s.apply op).bind fun s => s.run ops

end PriorityFifo

end IcnDemo
