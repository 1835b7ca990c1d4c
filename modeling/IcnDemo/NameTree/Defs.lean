import IcnDemo.Packet
import IcnDemo.CityHash
import IcnDemo.Lib.LinkedChain

/-!
# The name tree

The name tree is a hash table of name prefixes whose entries are also linked into a tree.
Entries and chain nodes are heap objects; the model keeps the two heaps, the bucket array and
the counters, and its operations change exactly the pointers the daemon changes.

Four details decide the behaviour on unusual names and sizes.

* The hash of a name is the exclusive or of the hashes of its components, so prefixes of
  different lengths of one name may have the same hash.
* `resize` narrows the stored hash to 32 bits before it reduces it modulo the new number of
  buckets, while every lookup reduces the full hash.
* Names are compared by value, without the types of their components, although the hash
  covers the types.
* A search hashes the octets that the name it is given has.  `lookup` makes the prefixes anew and
  so stores the hashes of their shortest form, whatever octets its argument has.

Loops over a chain follow the `next` pointers; `nextNode` bounds their length, since it counts
the nodes ever allocated.
-/

namespace IcnDemo

open LinkedChain

/-! ### Hashes of names -/

/-- The hash of one component, over the octets it has on the wire. -/
def componentHash (octets : List UInt8) : UInt64 :=
  cityHash64 octets

/-- `name_tree::computeHash`. -/
def computeHash (n : KeptName) : UInt64 :=
  n.octets.foldl (fun hashValue octets => hashValue ^^^ componentHash octets) 0

/-- `name_tree::computeHashSet`: the hashes of all prefixes, starting from the root. -/
def computeHashSet (n : KeptName) : List UInt64 :=
  n.octets.scanl (fun hashValue octets => hashValue ^^^ componentHash octets) 0

/-- The hash at position `i` of the set is the hash of the first `i` components. -/
theorem computeHashSet_getElem? {n : KeptName} {i : ℕ} (hi : i ≤ n.name.length) :
    (computeHashSet n)[i]? = some (computeHash (n.take i)) := by
  unfold computeHashSet computeHash KeptName.take
  rw [List.getElem?_scanl]
  simp [hi, ← n.hasOctets.length_eq]

/-- The octets of the name have the hash of the octets that the library would write. -/
def KeptName.SameHash (n : KeptName) : Prop :=
  computeHash n = computeHash n.name

instance (n : KeptName) : Decidable n.SameHash :=
  inferInstanceAs (Decidable (_ = _))

/-- An encoded name has the hashes of its octets. -/
@[simp] theorem Name.sameHash_encoded (n : Name) : n.encoded.SameHash :=
  rfl

/-! ### Load factors

The thresholds are products of a `double` load factor with the number of buckets.  A `double`
has 53 significant bits and both the conversion and the product round to nearest even. -/

/-- Round to 53 significant bits, to nearest with ties to even. -/
def roundMantissa (x : ℕ) : ℕ :=
  if x < 2 ^ 53 then x
  else
    let s := Nat.log2 x - 52
    let q := x / 2 ^ s
    let r := x % 2 ^ s
    let half := 2 ^ (s - 1)
    if half < r ∨ (r = half ∧ q % 2 = 1) then (q + 1) * 2 ^ s else q * 2 ^ s

/-- `static_cast<size_t>(0.5 * static_cast<double>(n))`. -/
def halfOf (n : ℕ) : ℕ :=
  roundMantissa n / 2

/-- `static_cast<size_t>(0.1 * static_cast<double>(n))`; the factor stored in the program is
`3602879701896397 / 2 ^ 55`. -/
def tenthOf (n : ℕ) : ℕ :=
  roundMantissa (3602879701896397 * roundMantissa n) / 2 ^ 55

/-! ### Heap objects -/

namespace NameTree

/-- Address of a chain node. -/
abbrev NodeId := ℕ

/-- Address of an entry. -/
abbrev EntryId := ℕ

/-- The table entries attached to a name tree entry, as pointers into the other tables. -/
structure Attachments where
  fibEntry : Option ℕ
  pitEntries : List ℕ
  measurementsEntry : Option ℕ
  strategyChoiceEntry : Option ℕ
deriving DecidableEq, Repr

/-- Nothing is attached to a fresh entry. -/
def Attachments.empty : Attachments := ⟨none, [], none, none⟩

/-- A name tree entry. -/
structure Entry where
  hash : UInt64
  namePrefix : Name
  parent : Option EntryId
  children : List EntryId
  attached : Attachments
  node : NodeId
deriving DecidableEq, Repr

/-- A chain node; the payload is the pointer to its entry. -/
abbrev Node := Cell NodeId EntryId

/-- `Entry::hasPitEntries`. -/
def Entry.hasPitEntries (E : Entry) : Bool :=
  !E.attached.pitEntries.isEmpty

/-- `Entry::isEmpty`: no children and nothing attached. -/
def Entry.isEmpty (E : Entry) : Bool :=
  E.children.isEmpty && E.attached.fibEntry.isNone && E.attached.pitEntries.isEmpty &&
    E.attached.measurementsEntry.isNone && E.attached.strategyChoiceEntry.isNone

/-- A predicate on entries, as the find operations take it. -/
abbrev EntrySelector := Entry → Bool

end NameTree

/-- The state of a `NameTree`. -/
structure NameTree where
  nodes : Heap NameTree.NodeId NameTree.EntryId
  nextNode : NameTree.NodeId
  entries : NameTree.EntryId → Option NameTree.Entry
  nextEntry : NameTree.EntryId
  nItems : ℕ
  nBuckets : ℕ
  minNBuckets : ℕ
  enlargeThreshold : ℕ
  shrinkThreshold : ℕ
  buckets : List (Option NameTree.NodeId)

namespace NameTree

/-- The constructor. -/
def create (nBuckets : ℕ) : NameTree where
  nodes := fun _ => none
  nextNode := 0
  entries := fun _ => none
  nextEntry := 0
  nItems := 0
  nBuckets := nBuckets
  minNBuckets := nBuckets
  enlargeThreshold := halfOf nBuckets
  shrinkThreshold := tenthOf nBuckets
  buckets := List.replicate nBuckets none

variable (t : NameTree) (newNBuckets : ℕ) (n : Name) (q : KeptName) (e : EntryId)
  (entrySelector : EntrySelector) (loc : ℕ) (f : Entry → Entry)

/-- The first node of a bucket, `m_buckets[loc]`. -/
def bucket : Option NodeId :=
  t.buckets.getD loc none

/-- The nodes of a bucket in the order a loop over the chain meets them. -/
def chain : List NodeId :=
  walk t.nodes t.nextNode (t.bucket loc)

/-- The bucket of a hash value. -/
def location (hashValue : UInt64) : ℕ :=
  hashValue.toNat % t.nBuckets

/-- The entry of a node, with its address. -/
def nodeEntry (n : NodeId) : Option (EntryId × Entry) :=
  match t.nodes n with
  | none => none
  | some c => (t.entries c.payload).map fun E => (c.payload, E)

/-- Change an entry in place. -/
def modifyEntry : NameTree :=
  { t with entries := Function.update t.entries e ((t.entries e).map f) }

/-- A change in place. -/
@[simp] theorem entries_modifyEntry_self : (t.modifyEntry e f).entries e = (t.entries e).map f :=
  Function.update_self ..

/-- A change in place leaves the others. -/
theorem entries_modifyEntry_of_ne {e e' : EntryId}
    (h : e' ≠ e) : (t.modifyEntry e f).entries e' = t.entries e' :=
  Function.update_of_ne h ..

/-- Change what is attached to an entry. -/
def modifyAttached (g : Attachments → Attachments) : NameTree :=
  t.modifyEntry e fun E => { E with attached := g E.attached }

/-! ### Insertion -/

/-- The first entry of a chain that satisfies a test. -/
def scan (test : Entry → Bool) : Option EntryId :=
  (t.chain loc).findSome? fun n =>
    match t.nodeEntry n with
    | none => none
    | some (e, E) => if test E then some e else none

/-- The part of `NameTree::insert` after an unsuccessful scan: a node behind the last one of
the chain and a fresh entry. -/
def insertNew : NameTree :=
  let hashValue := computeHash n
  let loc := t.location hashValue
  let last := lastOf none (t.chain loc)
  { t with
    nodes := pushBack t.nodes last t.nextNode t.nextEntry
    nextNode := t.nextNode + 1
    entries := Function.update t.entries t.nextEntry
      (some ⟨hashValue, n, none, [], Attachments.empty, t.nextNode⟩)
    nextEntry := t.nextEntry + 1
    buckets := t.buckets.set loc (pushBackHead (t.bucket loc) last t.nextNode) }

/-- `NameTree::insert`: the entry of `n`, and whether it was created. -/
def insert : NameTree × EntryId × Bool :=
  -- only the names are compared here, not the hashes
  match t.scan (t.location (computeHash n)) fun E => Name.equals n E.namePrefix with
  | some e => (t, e, false)
  | none => (t.insertNew n, t.nextEntry, true)

/-! ### Resizing -/

/-- The node heap and the new bucket array while `resize` moves the nodes. -/
structure Rehash where
  nodes : Heap NodeId EntryId
  newBuckets : List (Option NodeId)

/-- The bucket `resize` computes: the hash is narrowed to 32 bits first. -/
def narrowLocation (hashValue : UInt64) (newNBuckets : ℕ) : ℕ :=
  hashValue.toNat % 2 ^ 32 % newNBuckets

/-- Move node `p` behind the last node of its new bucket. -/
def relink (r : Rehash) (p : NodeId) : Rehash :=
  match t.nodeEntry p with
  | none => r
  | some (e, E) =>
      let b := narrowLocation E.hash newNBuckets
      let head := r.newBuckets.getD b none
      let pre := lastOf none (walk r.nodes t.nextNode head)
      { nodes := pushBack r.nodes pre p e
        newBuckets := r.newBuckets.set b (pushBackHead head pre p) }

/-- Move the nodes of one old chain, reading each successor before its node is changed. -/
def moveChain (t : NameTree) (newNBuckets : ℕ) : ℕ → Rehash → Option NodeId → Rehash
  | 0, r, _ => r
  | _ + 1, r, none => r
  | fuel + 1, r, some p =>
      let q := (r.nodes p).bind Cell.next
      moveChain t newNBuckets fuel (relink t newNBuckets r p) q

/-- `NameTree::resize`. -/
def resize (t : NameTree) (newNBuckets : ℕ) : NameTree :=
  let start : Rehash := ⟨t.nodes, List.replicate newNBuckets none⟩
  let r := (List.range t.nBuckets).foldl
    (fun r i => moveChain t newNBuckets t.nextNode r (t.bucket i)) start
  { t with
    nodes := r.nodes
    buckets := r.newBuckets
    nBuckets := newNBuckets
    enlargeThreshold := halfOf newNBuckets
    shrinkThreshold := tenthOf newNBuckets }

/-! ### Lookup -/

/-- Count a new entry and hang it under its parent. -/
def attachNew (parent : Option EntryId) : NameTree :=
  let t := { t with nItems := t.nItems + 1 }
  let t := t.modifyEntry e fun E => { E with parent := parent }
  match parent with
  | none => t
  | some p => t.modifyEntry p fun P => { P with children := P.children ++ [e] }

/-- Double the buckets when the table is more than half full. -/
def enlargeIfNeeded : NameTree :=
  if t.enlargeThreshold < t.nItems then t.resize (2 * t.nBuckets % 2 ^ 64) else t

/-- One pass of the loop of `lookup`, without the resize. -/
def insertChild (parent : Option EntryId) (n : Name) : NameTree × EntryId :=
  match t.insert n with
  | (t', e, true) => (t'.attachNew e parent, e)
  | (t', e, false) => (t', e)

/-- One pass of the loop of `lookup`, for the prefix with `i` components. -/
def lookupStep (s : NameTree × Option EntryId) (i : ℕ) : NameTree × Option EntryId :=
  let r := s.1.insertChild s.2 (n.getPrefix i)
  (r.1.enlargeIfNeeded, some r.2)

/-- `NameTree::lookup`: create the entries of all prefixes that are missing. -/
def lookup : NameTree × Option EntryId :=
  (List.range (n.length + 1)).foldl (lookupStep n) (t, none)

/-! ### Erasure -/

/-- Overwrite the first occurrence with the last element and shorten the vector. -/
def swapPop (l : List EntryId) (e : EntryId) : List EntryId :=
  match l.findIdx? (· == e) with
  | none => l
  | some i => (l.set i (l.getLastD e)).dropLast

/-- Unhook an entry from its parent and its chain and free its node. -/
def detach (E : Entry) : NameTree :=
  let t := match E.parent with
    | none => t
    | some p => t.modifyEntry p fun P => { P with children := swapPop P.children e }
  let loc := t.location E.hash
  { t with
    buckets := t.buckets.set loc (unlinkHead t.nodes (t.bucket loc) E.node)
    nodes := unlink t.nodes E.node
    nItems := t.nItems - 1 }

/-- Halve the buckets when the table is less than a tenth full, but not below the initial
number. -/
def shrinkIfNeeded : NameTree :=
  let newNBuckets := halfOf t.nBuckets
  if t.minNBuckets ≤ newNBuckets ∧ t.nItems < t.shrinkThreshold then t.resize newNBuckets else t

/-- The recursion of `eraseEntryIfEmpty` towards the root; the fuel bounds its depth. -/
def eraseUp : ℕ → NameTree → EntryId → NameTree × Bool
  | 0, t, _ => (t, false)
  | fuel + 1, t, e =>
      match t.entries e with
      | none => (t, false)
      | some E =>
          if E.isEmpty then
            let t := t.detach e E
            let t := match E.parent with
              | none => t
              | some p => (eraseUp fuel t p).1
            (t.shrinkIfNeeded, true)
          else (t, false)

/-- `NameTree::eraseEntryIfEmpty`.  Each level of the recursion has one component less. -/
def eraseEntryIfEmpty : NameTree × Bool :=
  match t.entries e with
  | none => (t, false)
  | some E => eraseUp (E.namePrefix.length + 1) t e

/-! ### Matching -/

/-- `NameTree::findExactMatch`. -/
def findExactMatch : Option EntryId :=
  let hashValue := computeHash q
  t.scan (t.location hashValue) fun E => hashValue == E.hash && Name.equals q.name E.namePrefix

/-- `NameTree::findLongestPrefixMatch` on a name: the hashes of all prefixes are tried from
the longest to the shortest, and a chain is searched for any prefix of the name. -/
def findLongestPrefixMatch : Option EntryId :=
  (List.range (q.name.length + 1)).reverse.findSome? fun i =>
    let hashValue := (computeHashSet q).getD i 0
    t.scan (t.location hashValue) fun E =>
      hashValue == E.hash && Name.isPrefixOf E.namePrefix q.name && entrySelector E

/-- The loop of the parent-walking overload. -/
def climb (t : NameTree) (entrySelector : EntrySelector) : ℕ → Option EntryId → Option EntryId
  | 0, _ => none
  | _ + 1, none => none
  | fuel + 1, some e =>
      match t.entries e with
      | none => none
      | some E => if entrySelector E then some e else climb t entrySelector fuel E.parent

/-- `NameTree::findLongestPrefixMatch` on an entry: climb from the entry to the root. -/
def findLongestPrefixMatchFrom (entry : Option EntryId)
    (entrySelector : EntrySelector) : Option EntryId :=
  match entry with
  | none => none
  | some e =>
      match t.entries e with
      | none => none
      | some E => t.climb entrySelector (E.namePrefix.length + 1) (some e)

/-- The entries an iterator of `findAllMatches` visits after the one it stands on. -/
def advanceAll (t : NameTree) (entrySelector : EntrySelector) : ℕ → EntryId → List EntryId
  | 0, _ => []
  | fuel + 1, e =>
      match t.entries e with
      | none => []
      | some E =>
          match E.parent with
          | none => []
          | some p =>
              match t.entries p with
              | none => []
              | some P =>
                  if entrySelector P then p :: advanceAll t entrySelector fuel p
                  else advanceAll t entrySelector fuel p

/-- `NameTree::findAllMatches`, as the list of entries its iterators visit. -/
def findAllMatches : List EntryId :=
  match t.findLongestPrefixMatch q entrySelector with
  | none => []
  | some e =>
      match t.entries e with
      | none => []
      | some E => e :: t.advanceAll entrySelector (E.namePrefix.length + 1) e

end NameTree

end IcnDemo
