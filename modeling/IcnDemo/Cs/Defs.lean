import IcnDemo.Lib.SortedTable
import IcnDemo.NameOrder

/-!
# The content store

The table of the content store (`table/cs.cpp`) is an ordered set of Data, by name and then by
digest.  A lookup compares the entries with a name, which may be a full name with a digest
(`compareQueryWithData`), and works on iterators of the set.

Iterators are indices into the list of entries.  Each step that the library leaves undefined is a
fault of its own: to move before the first entry, to read past the last one; so are an exception
and a loop that does not end.  The clock is read once for a lookup.
-/

namespace IcnDemo

/-! ### Entries -/

/-- `cs::Entry`; the latest point of time, which an entry without freshness period gets, is
`none`. -/
structure CsEntry where
  data : Data
  isUnsolicited : Bool
  staleTime : Option ℤ
deriving DecidableEq

namespace CsEntry

/-- `Entry::updateStaleTime`; the period is in milliseconds and the clock in nanoseconds. -/
def updateStaleTime (e : CsEntry) (now : ℤ) : CsEntry :=
  { e with
    staleTime :=
      if 0 ≤ e.data.freshnessPeriod then
        some (wrap64 (now + wrap64 (e.data.freshnessPeriod * 1000000)))
      else none }

/-- `Entry::isStale`. -/
def isStale (e : CsEntry) (now : ℤ) : Bool :=
  match e.staleTime with
  | none => false
  | some t => decide (t < now)

/-- `Entry::canSatisfy`. -/
def canSatisfy (e : CsEntry) (i : Interest) (now : ℤ) : Bool :=
  if !i.matchesData e.data then false
  else if i.selectors.mustBeFresh && e.isStale now then false
  else true

end CsEntry

/-! ### Order -/

namespace Name

/-- Does a query end with a digest? -/
def queryIsFullName (q : Name) : Bool :=
  match q.getLast? with
  | none => false
  | some c => c.isImplicitSha256Digest

/-- `compareQueryWithData`. -/
def compareQueryWithData (q : Name) (d : Data) : Ordering :=
  if q.queryIsFullName then
    (compare q.dropLast d.name).then
      ((q.getLastD (.generic [])).compare (.implicitDigest d.digest))
  else (compare q d.name).then .lt

end Name

/-- `compareDataWithData`. -/
def compareDataWithData (d d' : Data) : Ordering :=
  (Name.compare d.name d'.name).then
    (Component.compare (.implicitDigest d.digest) (.implicitDigest d'.digest))

/-- The table of `cs::Cs`. -/
structure Cs where
  table : List CsEntry
  sorted : table.Pairwise fun e e' => compareDataWithData e.data e'.data = .lt

/-- What must not happen during a lookup. -/
inductive CsFault where
  | exception
  | beforeBegin
  | pastEnd
  | endless
deriving DecidableEq, Repr

namespace Cs

/-- The entries that are less than a query. -/
def below (q : Name) (e : CsEntry) : Bool :=
  Name.compareQueryWithData q e.data == .gt

/-- `std::set::lower_bound` of a query. -/
def lowerBound (cs : Cs) (q : Name) : ℕ :=
  SortedTable.lowerBound (below q) cs.table

/-! ### Lookup -/

/-- `std::find_if` from an index on, given the entries from there. -/
def findIf (p : CsEntry → Bool) (last : ℕ) : List CsEntry → ℕ → Except CsFault ℕ
  | [], first => if first = last then .ok last else .error .pastEnd
  | e :: es, first =>
      if first = last then .ok last
      else if p e then .ok first
      else findIf p last es (first + 1)

/-- `Cs::findLeftmost`. -/
def findLeftmost (cs : Cs) (i : Interest) (now : ℤ) (first last : ℕ) : Except CsFault ℕ :=
  findIf (fun e => e.canSatisfy i now) last (cs.table.drop first) first

/-- `std::find_if` over reverse iterators, from an index downwards; `last` means that nothing was
found. -/
def findLastIf (cs : Cs) (p : CsEntry → Bool) (first last : ℕ) : ℕ → Except CsFault ℕ
  | 0 => if 0 = first then .ok last else .error .beforeBegin
  | k + 1 =>
      if k + 1 = first then .ok last
      else
        match cs.table[k]? with
        | none => .error .pastEnd
        | some e => if p e then .ok k else findLastIf cs p first last k

/-- `Cs::findRightmostAmongExact`. -/
def findRightmostAmongExact (cs : Cs) (i : Interest) (now : ℤ) (first last : ℕ) :
    Except CsFault ℕ :=
  findLastIf cs (fun e => e.canSatisfy i now) first last last

/-- The loop of `Cs::findRightmost`. -/
def findRightmostLoop (cs : Cs) (i : Interest) (now : ℤ) (first last : ℕ) : ℕ → ℕ → Except CsFault ℕ
  | 0, _ => .error .endless
  | fuel + 1, right =>
      if right = first then .ok last
      else
        match right with
        | 0 => .error .beforeBegin
        | prev + 1 =>
            match cs.table[prev]? with
            | none => .error .pastEnd
            | some e =>
                if e.data.name.length = i.name.length then
                  (cs.findRightmostAmongExact i now first (prev + 1)).map fun matchExact =>
                    if matchExact = prev + 1 then last else matchExact
                else
                  let left := cs.lowerBound (e.data.name.getPrefix (i.name.length + 1))
                  (cs.findLeftmost i now left (prev + 1)).bind fun m =>
                    if m ≠ prev + 1 then .ok m
                    else findRightmostLoop cs i now first last fuel left

/-- `Cs::findRightmost`; each round moves to the left, so there are no more rounds than entries. -/
def findRightmost (cs : Cs) (i : Interest) (now : ℤ) (first last : ℕ) : Except CsFault ℕ :=
  findRightmostLoop cs i now first last (cs.table.length + 1) last

/-- The end of the range that `Cs::find` searches. -/
def findEnd (cs : Cs) (q : Name) : Except CsFault ℕ :=
  if q.length > 0 then
    match q.getSuccessor with
    | none => .error .exception
    | some successor => .ok (cs.lowerBound successor)
  else .ok cs.table.length

/-- The iterator that `Cs::find` arrives at, with the end of its range. -/
def findMatch (cs : Cs) (i : Interest) (now : ℤ) : Except CsFault (ℕ × ℕ) :=
  (cs.findEnd i.name).bind fun last =>
    ((if i.selectors.childSelector = 1 then cs.findRightmost i now (cs.lowerBound i.name) last
      else cs.findLeftmost i now (cs.lowerBound i.name) last)).map fun m => (m, last)

/-- `Cs::find`: the entry that the hit callback gets, or none for a miss. -/
def find (cs : Cs) (i : Interest) (now : ℤ) : Except CsFault (Option CsEntry) :=
  (cs.findMatch i now).bind fun r =>
    if r.1 = r.2 then .ok none
    else
      match cs.table[r.1]? with
      | none => .error .pastEnd
      | some e => .ok (some e)

end Cs

end IcnDemo
