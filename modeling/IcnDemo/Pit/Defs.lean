import IcnDemo.Packet
import IcnDemo.NameTree.Find

/-!
# The Pending Interest Table

PIT entries are heap objects that hang off name tree entries: `nameTreeEntry` of an object points
back to the name tree entry whose list contains it, and is null before insertion and after
erasure.  An object outlives its erasure, because strategies and timers may keep a pointer to
it, so the heap never forgets an entry.

Times are nanoseconds since the start of the clock, in signed 64-bit integers.
-/

namespace IcnDemo

/-- Address of a face object. -/
abbrev FaceRef := ℕ

namespace Pit

/-- Address of a PIT entry. -/
abbrev EntryId := ℕ

/-- `pit::InRecord`. -/
structure InRecord where
  face : FaceRef
  lastNonce : UInt32
  lastRenewed : ℤ
  expiry : ℤ
  interest : Interest
deriving DecidableEq

/-- `pit::OutRecord`; the Nack is kept as its reason code. -/
structure OutRecord where
  face : FaceRef
  lastNonce : UInt32
  lastRenewed : ℤ
  expiry : ℤ
  incomingNack : Option ℕ
deriving DecidableEq

/-- `pit::Entry`. -/
structure Entry where
  interest : Interest
  inRecords : List InRecord
  outRecords : List OutRecord
  nameTreeEntry : Option NameTree.EntryId
  unsatisfyTimer : Option ℕ
  stragglerTimer : Option ℕ
deriving DecidableEq

/-! ### Records -/

/-- The expiry `FaceRecord::update` computes; a negative lifetime stands for the default of four
seconds. -/
def expiryOf (now lifetime : ℤ) : ℤ :=
  wrap64 (now + wrap64 ((if lifetime < 0 then 4000 else lifetime) * 1000000))

namespace Entry

variable (P : Entry) (face : FaceRef)

/-- `Entry::insertOrUpdateInRecord`, for an Interest whose nonce has been read. -/
def insertOrUpdateInRecord (i : Interest) (nonce : UInt32) (now : ℤ) : Entry :=
  let r : InRecord := ⟨face, nonce, now, expiryOf now i.lifetime, i⟩
  match P.inRecords.findIdx? fun r => r.face == face with
  | none => { P with inRecords := r :: P.inRecords }
  | some k => { P with inRecords := P.inRecords.set k r }

/-- `Entry::insertOrUpdateOutRecord`; a Nack recorded earlier stays. -/
def insertOrUpdateOutRecord (i : Interest) (nonce : UInt32) (now : ℤ) : Entry :=
  let expiry := expiryOf now i.lifetime
  match P.outRecords.findIdx? fun r => r.face == face with
  | none => { P with outRecords := ⟨face, nonce, now, expiry, none⟩ :: P.outRecords }
  | some k =>
      { P with
        outRecords := P.outRecords.modify k fun r =>
          { r with lastNonce := nonce, lastRenewed := now, expiry := expiry } }

/-- `Entry::getInRecord`. -/
def getInRecord : Option InRecord :=
  P.inRecords.find? fun r => r.face == face

/-- `Entry::getOutRecord`. -/
def getOutRecord : Option OutRecord :=
  P.outRecords.find? fun r => r.face == face

/-- `Entry::deleteInRecord`. -/
def deleteInRecord : Entry :=
  { P with inRecords := P.inRecords.eraseP fun r => r.face == face }

/-- `Entry::deleteInRecords`. -/
def deleteInRecords : Entry :=
  { P with inRecords := [] }

/-- `Entry::deleteOutRecord`. -/
def deleteOutRecord : Entry :=
  { P with outRecords := P.outRecords.eraseP fun r => r.face == face }

/-- `Entry::hasUnexpiredOutRecords`. -/
def hasUnexpiredOutRecords (now : ℤ) : Bool :=
  P.outRecords.any fun r => decide (now ≤ r.expiry)

/-- The bits of a `DuplicateNonceWhere`: in-record or out-record, of the same or another
face. -/
def findNonce (nonce : UInt32) (face : FaceRef) : ℕ :=
  let ins := P.inRecords.foldl (fun dnw r =>
    if r.lastNonce = nonce then dnw ||| (if r.face = face then 1 else 2) else dnw) 0
  P.outRecords.foldl (fun dnw r =>
    if r.lastNonce = nonce then dnw ||| (if r.face = face then 4 else 8) else dnw) ins

end Entry

end Pit

/-- The PIT together with the name tree it lives in. -/
structure Pit where
  nameTree : NameTree
  entries : Pit.EntryId → Option Pit.Entry
  nextEntry : Pit.EntryId
  nItems : ℕ

namespace Pit

/-- The PIT over a fresh name tree. -/
def create (nBuckets : ℕ) : Pit where
  nameTree := NameTree.create nBuckets
  entries := fun _ => none
  nextEntry := 0
  nItems := 0

variable (pit : Pit) (i : Interest) (p : EntryId) (f : Entry → Entry) (e : NameTree.EntryId)

/-- A PIT entry as `insertPitEntry` leaves it. -/
def newEntry : Entry :=
  ⟨i, [], [], some e, none, none⟩

/-- The test of `findOrInsert` on the entries at one name. -/
def sameInterest : Bool :=
  match pit.entries p with
  | none => false
  | some P => Name.equals P.interest.name i.name && P.interest.selectors.equals i.selectors

/-- Attach a fresh PIT entry to a name tree entry. -/
def insertAt : Pit where
  nameTree := pit.nameTree.modifyAttached e fun a =>
    { a with pitEntries := a.pitEntries ++ [pit.nextEntry] }
  entries := Function.update pit.entries pit.nextEntry (some (newEntry i e))
  nextEntry := pit.nextEntry + 1
  nItems := pit.nItems + 1

/-- `Pit::findOrInsert`.  The lookup creates name tree entries even when nothing may be
inserted. -/
def findOrInsert (allowInsert : Bool) : Pit × Option EntryId × Bool :=
  let r := pit.nameTree.lookup i.name
  let pit := { pit with nameTree := r.1 }
  match r.2.bind fun e => (r.1.entries e).map fun E => (e, E) with
  -- the lookup never returns a null pointer
  | none => (pit, none, true)
  | some (e, E) =>
      match E.attached.pitEntries.find? (pit.sameInterest i) with
      | some p => (pit, some p, false)
      | none => if allowInsert then (pit.insertAt i e, some pit.nextEntry, true)
          else (pit, none, true)

/-- `Pit::insert`. -/
def insert : Pit × Option EntryId × Bool :=
  pit.findOrInsert i true

/-- `Pit::find`. -/
def find : Pit × Option EntryId :=
  let r := pit.findOrInsert i false
  (r.1, r.2.1)

/-- Change a PIT entry in place. -/
def modify : Pit :=
  { pit with entries := Function.update pit.entries p ((pit.entries p).map f) }

/-- A change in place. -/
@[simp] theorem entries_modify_self : (pit.modify p f).entries p = (pit.entries p).map f :=
  Function.update_self ..

/-- A change in place leaves the others. -/
theorem entries_modify_of_ne {p q : EntryId} (h : q ≠ p) :
    (pit.modify p f).entries q = pit.entries q :=
  Function.update_of_ne h ..

/-- `name_tree::Entry::erasePitEntry`. -/
def detach : Pit where
  nameTree := pit.nameTree.modifyAttached e fun a =>
    { a with pitEntries := NameTree.swapPop a.pitEntries p }
  entries := Function.update pit.entries p
    ((pit.entries p).map fun P => { P with nameTreeEntry := none })
  nextEntry := pit.nextEntry
  nItems := pit.nItems

/-- `Pit::erase`; an entry that is not in the table violates the assertion. -/
def erase : Option Pit :=
  match (pit.entries p).bind Entry.nameTreeEntry with
  | none => none
  | some e =>
      let pit := pit.detach p e
      some { pit with
        nameTree := (pit.nameTree.eraseEntryIfEmpty e).1
        nItems := pit.nItems - 1 }

/-- Does the Interest of a PIT entry match the Data? -/
def entryMatches (d : Data) (p : EntryId) : Bool :=
  match pit.entries p with
  | none => false
  | some P => P.interest.matchesData d

/-- `Pit::findAllDataMatches`; the search sees the octets of the Data name. -/
def findAllDataMatches (d : Data) : List EntryId :=
  (pit.nameTree.findAllMatches d.keptName NameTree.Entry.hasPitEntries).flatMap fun e =>
    match pit.nameTree.entries e with
    | none => []
    | some E => E.attached.pitEntries.filter (pit.entryMatches d)

end Pit

end IcnDemo
