import IcnDemo.NameTree.FullEnumerate
import IcnDemo.Fib.Entry

/-!
# The FIB

A FIB entry hangs off a name tree entry.  Users of the FIB hold pointers to its entries, also to
entries that have been erased; an erased entry no longer knows its name tree entry.

The second half says what the FIB is for: a map from prefixes to next hops.
-/

namespace IcnDemo

namespace Fib

/-- `predicate_NameTreeEntry_hasFibEntry`. -/
def hasFibEntry (E : NameTree.Entry) : Bool :=
  E.attached.fibEntry.isSome

end Fib

/-- The FIB together with the name tree it lives in. -/
structure Fib where
  nameTree : NameTree
  entries : Fib.EntryId → Option Fib.Entry
  nextEntry : Fib.EntryId

namespace Fib

/-- The FIB over a fresh name tree. -/
def create (nBuckets : ℕ) : Fib where
  nameTree := NameTree.create nBuckets
  entries := fun _ => none
  nextEntry := 0

variable (s : Fib) (f : EntryId) (face : FaceRef) (e : NameTree.EntryId) (n : Name) (q : KeptName)

/-- `name_tree::Entry::getFibEntry`. -/
def getFibEntry : Option EntryId :=
  (s.nameTree.entries e).bind fun E => E.attached.fibEntry

/-- `Fib::findExactMatch`. -/
def findExactMatch : Option EntryId :=
  (s.nameTree.findExactMatch q).bind s.getFibEntry

/-- Change an entry in place. -/
def modify (g : Entry → Entry) : Fib :=
  { s with entries := Function.update s.entries f ((s.entries f).map g) }

/-- Create a FIB entry and attach it to a name tree entry. -/
def attach : Fib where
  nameTree := s.nameTree.modifyAttached e fun a => { a with fibEntry := some s.nextEntry }
  entries := Function.update s.entries s.nextEntry (some ⟨n, [], some e⟩)
  nextEntry := s.nextEntry + 1

/-- `name_tree::Entry::setFibEntry` with a null pointer. -/
def detach : Fib :=
  match s.getFibEntry e with
  | none => s
  | some f =>
    { s.modify f fun F => { F with nameTreeEntry := none } with
      nameTree := s.nameTree.modifyAttached e fun a => { a with fibEntry := none } }

/-- `Fib::insert`: the entry of the prefix, and whether it is new. -/
def insert : Fib × Option (EntryId × Bool) :=
  let r := s.nameTree.lookup n
  let s := { s with nameTree := r.1 }
  match r.2 with
  | none => (s, none)
  | some e =>
    match s.getFibEntry e with
    | some f => (s, some (f, false))
    | none => (s.attach e n, some (s.nextEntry, true))

/-- `Fib::erase` on a name tree entry. -/
def eraseAt : Fib :=
  { s.detach e with nameTree := ((s.detach e).nameTree.eraseEntryIfEmpty e).1 }

/-- `Fib::erase` on a prefix. -/
def erase : Fib :=
  match s.nameTree.findExactMatch q with
  | none => s
  | some e => s.eraseAt e

/-- `Fib::erase` on a FIB entry. -/
def eraseEntry : Fib :=
  match (s.entries f).bind Entry.nameTreeEntry with
  | none => s
  | some e => s.eraseAt e

/-- `Entry::addNextHop` through a pointer. -/
def addNextHop (S : CostSort) (s : Fib) (f : EntryId) (face : FaceRef) (cost : ℕ) : Fib :=
  s.modify f fun F => { F with nextHops := NextHopList.addNextHop S F.nextHops face cost }

/-- `Entry::removeNextHop` through a pointer. -/
def removeNextHop : Fib :=
  s.modify f fun F => { F with nextHops := NextHopList.removeNextHop F.nextHops face }

/-- One round of the first loop of `Fib::removeNextHopFromAllEntries`; the list is `toErase`. -/
def removeNextHopAt (r : Fib × List EntryId) (e : NameTree.EntryId) : Fib × List EntryId :=
  match r.1.getFibEntry e with
  | none => r
  | some f =>
    let s := r.1.removeNextHop f face
    if (s.entries f).any Entry.hasNextHops then (s, r.2) else (s, r.2 ++ [f])

/-- The first loop of `Fib::removeNextHopFromAllEntries`. -/
def removeNextHops : Fib × List EntryId :=
  (s.nameTree.fullEnumerate hasFibEntry).foldl (removeNextHopAt face) (s, [])

/-- `Fib::removeNextHopFromAllEntries`. -/
def removeNextHopFromAllEntries : Fib :=
  (s.removeNextHops face).2.foldl eraseEntry (s.removeNextHops face).1

/-! ### Operations -/

/-- The operations of a run.  The last ones are those of the other tables on the name tree; these
tables attach and detach their own entries.  Only an erasure sees the octets of its prefix. -/
inductive Op where
  | insert (n : Name)
  | erase (q : KeptName)
  | eraseEntry (f : EntryId)
  | addNextHop (f : EntryId) (face : FaceRef) (cost : ℕ)
  | removeNextHop (f : EntryId) (face : FaceRef)
  | removeNextHopFromAllEntries (face : FaceRef)
  | lookup (n : Name)
  | eraseEntryIfEmpty (e : NameTree.EntryId)
  | attachOther (e : NameTree.EntryId) (pitEntries : List ℕ) (measurementsEntry : Option ℕ)
      (strategyChoiceEntry : Option ℕ)

/-- The effect of an operation. -/
def apply (S : CostSort) (s : Fib) : Op → Fib
  | .insert n => (s.insert n).1
  | .erase q => s.erase q
  | .eraseEntry f => s.eraseEntry f
  | .addNextHop f face cost => s.addNextHop S f face cost
  | .removeNextHop f face => s.removeNextHop f face
  | .removeNextHopFromAllEntries face => s.removeNextHopFromAllEntries face
  | .lookup n => { s with nameTree := (s.nameTree.lookup n).1 }
  | .eraseEntryIfEmpty e => { s with nameTree := (s.nameTree.eraseEntryIfEmpty e).1 }
  | .attachOther e pitEntries measurementsEntry strategyChoiceEntry =>
    { s with
      nameTree := s.nameTree.modifyAttached e fun a =>
        ⟨a.fibEntry, pitEntries, measurementsEntry, strategyChoiceEntry⟩ }

/-- The state after a run. -/
def run (S : CostSort) (s : Fib) (ops : List Op) : Fib :=
  ops.foldl (apply S) s

end Fib

/-! ### The abstract FIB -/

/-- The costs of the next hops of one prefix. -/
abbrev NextHopMap := FaceRef → Option ℕ

/-- A map from prefixes to next hops. -/
abbrev FibMap := Name → Option NextHopMap

namespace FibMap

/-- The map without a prefix. -/
def empty : FibMap := fun _ => none

variable (M : FibMap) (n : Name)

/-- A new prefix has no next hops. -/
def insert : FibMap :=
  if (M n).isSome then M else Function.update M n (some fun _ => none)

/-- Remove a prefix. -/
def erase : FibMap :=
  Function.update M n none

/-- Set the cost of a face at a prefix that is there. -/
def addNextHop (face : FaceRef) (cost : ℕ) : FibMap :=
  Function.update M n ((M n).map fun hops => Function.update hops face (some cost))

/-- Remove a face at one prefix. -/
def removeNextHop (face : FaceRef) : FibMap :=
  Function.update M n ((M n).map fun hops => Function.update hops face none)

open Classical in
/-- Remove a face at every prefix, and the prefixes that have no next hop then. -/
noncomputable def removeNextHopFromAllEntries (face : FaceRef) : FibMap := fun n =>
  (M n).bind fun hops =>
    if ∀ other, other ≠ face → hops other = none then none
    else some (Function.update hops face none)

end FibMap

namespace Fib

/-- The prefix of an entry that is in the FIB. -/
def prefixOf (s : Fib) (f : EntryId) : Option Name :=
  (s.entries f).bind fun F => F.nameTreeEntry.map fun _ => F.namePrefix

/-- The abstract operation.  An operation on an entry is one on its prefix; on an entry that has
been erased it changes nothing. -/
noncomputable def applyMap (s : Fib) (M : FibMap) : Op → FibMap
  | .insert n => M.insert n
  | .erase q => M.erase q.name
  | .eraseEntry f => (s.prefixOf f).elim M M.erase
  | .addNextHop f face cost => (s.prefixOf f).elim M fun n => M.addNextHop n face cost
  | .removeNextHop f face => (s.prefixOf f).elim M fun n => M.removeNextHop n face
  | .removeNextHopFromAllEntries face => M.removeNextHopFromAllEntries face
  | .lookup _ => M
  | .eraseEntryIfEmpty _ => M
  | .attachOther _ _ _ _ => M

/-- The map after the abstract operations of a run. -/
noncomputable def runMap (S : CostSort) : Fib → FibMap → List Op → FibMap
  | _, M, [] => M
  | s, M, op :: ops => runMap S (s.apply S op) (s.applyMap M op) ops

end Fib

end IcnDemo
