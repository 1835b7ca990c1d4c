import IcnDemo.Name
import IcnDemo.CityHash

/-!
# The dead nonce list

A bounded queue of hashes of names with nonces.  Marks are pushed at fixed intervals, and the
number of marks in the queue tells how long an item survives; the capacity is adjusted from it.
The two factors 1.2 and 0.9 are doubles in the source; for every capacity in range the rounded
product has the integer part of the exact one, so they are fractions here.
-/

namespace IcnDemo

/-- The state of a `DeadNonceList`. -/
structure DeadNonceList where
  queue : List UInt64
  capacity : ℕ
  actualMarkCounts : List ℕ

namespace DeadNonceList

/-- `INITIAL_CAPACITY`. -/
def initialCapacity : ℕ := 2 ^ 7
/-- `MIN_CAPACITY`. -/
def minCapacity : ℕ := 2 ^ 3
/-- `MAX_CAPACITY`. -/
def maxCapacity : ℕ := 2 ^ 24
/-- `EXPECTED_MARK_COUNT`. -/
def expectedMarkCount : ℕ := 5
/-- `EVICT_LIMIT`. -/
def evictLimit : ℕ := 2 ^ 6

/-- The item that separates time slots. -/
def markItem : UInt64 := 0

/-- `DEFAULT_LIFETIME`, in nanoseconds. -/
def lifetime : ℤ := 6000000000

/-- The constructor. -/
def create : DeadNonceList :=
  ⟨List.replicate expectedMarkCount markItem, initialCapacity, []⟩

/-- `DeadNonceList::makeEntry`. -/
def makeEntry (n : Name) (nonce : UInt32) : UInt64 :=
  cityHash64WithSeed n.wire nonce.toUInt64

variable (dnl : DeadNonceList)

/-- `DeadNonceList::has`. -/
def has (n : Name) (nonce : UInt32) : Bool :=
  dnl.queue.contains (makeEntry n nonce)

/-- `DeadNonceList::evictEntries`: the oldest items go, a bounded number at a time. -/
def evictEntries : DeadNonceList :=
  { dnl with queue := dnl.queue.drop (min (dnl.queue.length - dnl.capacity) evictLimit) }

/-- `DeadNonceList::add`. -/
def add (n : Name) (nonce : UInt32) : DeadNonceList :=
  evictEntries { dnl with queue := dnl.queue ++ [makeEntry n nonce] }

/-- `DeadNonceList::mark`. -/
def mark : DeadNonceList :=
  let queue := dnl.queue ++ [markItem]
  { dnl with
    queue := queue
    actualMarkCounts := queue.count markItem :: dnl.actualMarkCounts }

/-- `DeadNonceList::adjustCapacity`. -/
def adjustCapacity : DeadNonceList :=
  let capacity :=
    if dnl.actualMarkCounts.all fun c => decide (expectedMarkCount < c) then
      max minCapacity (dnl.capacity * 9 / 10)
    else if dnl.actualMarkCounts.all fun c => decide (c < expectedMarkCount) then
      min maxCapacity (dnl.capacity * 12 / 10)
    else dnl.capacity
  evictEntries { dnl with capacity := capacity, actualMarkCounts := [] }

end DeadNonceList

end IcnDemo
