import IcnDemo.Packet

/-!
# The routing information base

Routes, RIB entries and the RIB table of `rib/route.hpp`, `rib/rib-entry.cpp` and `rib/rib.cpp`.
The table has one entry for each name, so a pointer to an entry is its name.  It is an ordered
map: names are found exactly, with the types of their components, while `isPrefixOf` ignores the
types.

Failed assertions and undefined behaviour are `none`.  The scheduler is present through the ids of
the events that are cancelled.
-/

namespace IcnDemo

/-! ### Routes -/

/-- `rib::Route`. -/
structure Route where
  faceId : ℕ
  origin : ℕ
  flags : ℕ
  cost : ℕ
  expires : ℤ
  expirationEvent : Option ℕ
deriving DecidableEq, Repr

namespace Route

/-- `Route::isChildInherit`. -/
def isChildInherit (r : Route) : Bool :=
  r.flags.testBit 0

/-- `Route::isCapture`. -/
def isCapture (r : Route) : Bool :=
  r.flags.testBit 1

/-- `compareFaceIdAndOrigin`. -/
def compareFaceIdAndOrigin (r s : Route) : Bool :=
  r.faceId == s.faceId && r.origin == s.origin

/-- `compareFaceId`. -/
def compareFaceId (r : Route) (faceId : ℕ) : Bool :=
  r.faceId == faceId

end Route

/-- `Rib::RouteSet`: at most one route for each face, in the order of the face ids. -/
abbrev RouteSet := List Route

namespace RouteSet

/-- `std::set::find`, which compares face ids only. -/
def find (s : RouteSet) (r : Route) : Option Route :=
  List.find? (fun x => x.compareFaceId r.faceId) s

/-- The place of a route in the order. -/
def place (r : Route) : RouteSet → RouteSet
  | [] => [r]
  | x :: s => if r.faceId < x.faceId then r :: x :: s else x :: place r s

/-- `std::set::insert`: a route of a face that is already there is ignored. -/
def insert (s : RouteSet) (r : Route) : RouteSet :=
  if (s.find r).isSome then s else place r s

/-- `std::set::erase` of what `find` returns. -/
def erase (s : RouteSet) (r : Route) : RouteSet :=
  List.filter (fun x => !x.compareFaceId r.faceId) s

end RouteSet

/-! ### Entries -/

/-- `rib::RibEntry`. -/
structure RibEntry where
  name : Name
  parent : Option Name
  children : List Name
  routes : List Route
  inheritedRoutes : List Route
  nRoutesWithCaptureSet : ℕ
deriving DecidableEq, Repr

/-- What a function that returns a `const Route*` may return, when the route is not in the
entry. -/
inductive RoutePointer where
  | null
  | dangling
deriving DecidableEq, Repr

namespace RibEntry

/-- A new entry. -/
def create (n : Name) : RibEntry :=
  ⟨n, none, [], [], [], 0⟩

variable (e : RibEntry) (faceId : ℕ) (r : Route)

/-- `RibEntry::findRoute`. -/
def findRoute : Option Route :=
  e.routes.find? fun x => x.compareFaceIdAndOrigin r

/-- `RibEntry::insertRoute`. -/
def insertRoute : RibEntry :=
  match e.findRoute r with
  | some _ => e
  | none =>
      { e with
        routes := e.routes ++ [r]
        nRoutesWithCaptureSet :=
          if r.isCapture then e.nRoutesWithCaptureSet + 1 else e.nRoutesWithCaptureSet }

/-- Decrement of an unsigned 64-bit counter. -/
def decrement (n : ℕ) : ℕ :=
  if n = 0 then 2 ^ 64 - 1 else n - 1

/-- `RibEntry::eraseRoute`, with the event it cancels. -/
def eraseRoute : RibEntry × Option ℕ :=
  match e.findRoute r with
  | none => (e, none)
  | some x =>
      ({ e with
          routes := e.routes.eraseP fun x => x.compareFaceIdAndOrigin r
          nRoutesWithCaptureSet :=
            if x.isCapture then decrement e.nRoutesWithCaptureSet else e.nRoutesWithCaptureSet },
        x.expirationEvent)

/-- `RibEntry::hasFaceId`. -/
def hasFaceId : Bool :=
  e.routes.any fun r => r.compareFaceId faceId

/-- `RibEntry::getNRoutes`. -/
def getNRoutes : ℕ :=
  e.routes.length

/-- `RibEntry::addInheritedRoute`. -/
def addInheritedRoute : RibEntry :=
  { e with inheritedRoutes := e.inheritedRoutes ++ [r] }

/-- `RibEntry::hasInheritedRoute`. -/
def hasInheritedRoute : Bool :=
  e.inheritedRoutes.any fun x => x.compareFaceId r.faceId

/-- `RibEntry::removeInheritedRoute`; erasing the end iterator is undefined. -/
def removeInheritedRoute : Option RibEntry :=
  if e.hasInheritedRoute r then
    some { e with inheritedRoutes := e.inheritedRoutes.eraseP fun x => x.compareFaceId r.faceId }
  else none

/-- `RibEntry::hasCapture`. -/
def hasCapture : Bool :=
  decide (0 < e.nRoutesWithCaptureSet)

/-- `RibEntry::hasChildInheritOnFaceId`. -/
def hasChildInheritOnFaceId : Bool :=
  e.routes.any fun r => r.compareFaceId faceId && r.isChildInherit

/-- The first of the routes with the lowest cost. -/
def lowestCost (rs : List Route) : Option Route :=
  rs.foldl (fun candidate r =>
    match candidate with
    | none => some r
    | some c => if r.cost < c.cost then some r else some c) none

/-- `RibEntry::getRouteWithLowestCostByFaceId`. -/
def getRouteWithLowestCostByFaceId : Option Route :=
  lowestCost (e.routes.filter fun r => r.compareFaceId faceId)

/-- `RibEntry::getRouteWithLowestCostAndChildInheritByFaceId`. -/
def getRouteWithLowestCostAndChildInheritByFaceId : Option Route :=
  lowestCost (e.routes.filter fun r => r.compareFaceId faceId && r.isChildInherit)

/-- `RibEntry::getRouteWithSecondLowestCostByFaceId`: a pointer into a vector that is destroyed on
return, unless it is null. -/
def getRouteWithSecondLowestCostByFaceId : RoutePointer :=
  if (e.routes.filter fun r => r.compareFaceId faceId).length < 2 then .null else .dangling

end RibEntry

/-! ### The table -/

/-- `rib::Rib`: the map with its keys in order, and the entries of each face. -/
structure Rib where
  entries : Name → Option RibEntry
  names : List Name
  faceMap : ℕ → List Name
  nItems : ℕ
  cancelled : List ℕ

namespace Rib

/-- The empty RIB. -/
def create : Rib :=
  ⟨fun _ => none, [], fun _ => [], 0, []⟩

variable (rib : Rib) (n : Name) (r : Route)

/-- `Rib::find`. -/
def find : Option RibEntry :=
  rib.entries n

/-- Change an entry in place. -/
def modifyEntry (f : RibEntry → RibEntry) : Rib :=
  { rib with entries := Function.update rib.entries n ((rib.entries n).map f) }

/-- `Rib::findParent`: the longest proper prefix in the table. -/
def findParent : Option Name :=
  (List.range n.length).reverse.findSome? fun i =>
    if (rib.find (n.getPrefix i)).isSome then some (n.getPrefix i) else none

/-- `Rib::findDescendants`: the keys that follow, as long as they are below the name. -/
def findDescendants : List Name :=
  if (rib.find n).isSome then
    ((rib.names.dropWhile fun m => decide (m ≠ n)).drop 1).takeWhile fun m => Name.isPrefixOf n m
  else []

/-- `Rib::findDescendantsForNonInsertedName`. -/
def findDescendantsForNonInsertedName : List Name :=
  rib.names.filter fun m => Name.isPrefixOf n m

/-- The parent of an entry. -/
def parentOf : Option Name :=
  (rib.entries n).bind RibEntry.parent

/-- `RibEntry::addChild`. -/
def addChild (p c : Name) : Option Rib :=
  if (rib.parentOf c).isSome then none
  else
    some ((rib.modifyEntry c fun e => { e with parent := some p }).modifyEntry p fun e =>
      { e with children := e.children ++ [c] })

/-- `RibEntry::removeChild`. -/
def removeChild (p c : Name) : Option Rib :=
  if rib.parentOf c = some p then
    some ((rib.modifyEntry c fun e => { e with parent := none }).modifyEntry p fun e =>
      { e with children := e.children.filter fun x => decide (x ≠ c) })
  else none

/-- The place of a key in the map. -/
def placeName (n : Name) : List Name → List Name
  | [] => [n]
  | m :: ms => if Name.compare n m = .lt then n :: m :: ms else m :: placeName n ms

/-- Move the children of the parent that are below the new entry to the new entry. -/
def adoptChildren (n : Name) (parent : Option Name) : List Name → Rib → Option Rib
  | [], rib => some rib
  | c :: cs, rib =>
      if rib.parentOf c = parent then
        match parent with
        | none => (rib.addChild n c).bind (adoptChildren n parent cs)
        | some p => (rib.removeChild p c).bind fun rib =>
            (rib.addChild n c).bind (adoptChildren n parent cs)
      else adoptChildren n parent cs rib

/-- The fields that a registration changes in a route that exists. -/
def updateRoute (x : Route) : Route :=
  { x with
    flags := r.flags, cost := r.cost, expires := r.expires, expirationEvent := r.expirationEvent }

/-- Replace the first element that meets a condition. -/
def replaceFirst {α : Type} (cond : α → Bool) (f : α → α) : List α → List α
  | [] => []
  | x :: xs => if cond x then f x :: xs else x :: replaceFirst cond f xs

/-- Make an entry a child of its parent, if it has one. -/
def linkParent : Option Name → Option Rib
  | none => some rib
  | some p => rib.addChild p n

/-- Take an entry away from its parent, if it has one. -/
def unlinkParent : Option Name → Option Rib
  | none => some rib
  | some p => rib.removeChild p n

/-- `Rib::insert` for a name that is not in the table. -/
def insertEntry : Option Rib :=
  let rib := { rib with
    entries := Function.update rib.entries n (some ((RibEntry.create n).insertRoute r))
    names := placeName n rib.names
    nItems := rib.nItems + 1 }
  let parent := rib.findParent n
  (rib.linkParent n parent).bind fun rib =>
    (adoptChildren n parent (rib.findDescendants n) rib).map fun rib =>
      { rib with faceMap := Function.update rib.faceMap r.faceId (rib.faceMap r.faceId ++ [n]) }

/-- `Rib::insert`.  An update of a route does not touch the capture counter. -/
def insert : Option Rib :=
  match rib.find n with
  | none => rib.insertEntry n r
  | some e =>
      match e.findRoute r with
      | none =>
          some { rib.modifyEntry n fun e => e.insertRoute r with
            nItems := rib.nItems + 1
            faceMap := Function.update rib.faceMap r.faceId (rib.faceMap r.faceId ++ [n]) }
      | some x =>
          some { rib.modifyEntry n fun e =>
              { e with
                routes := replaceFirst (fun x => x.compareFaceIdAndOrigin r) (updateRoute r)
                  e.routes } with
            cancelled := rib.cancelled ++ x.expirationEvent.toList }

/-- Hand the children of an entry over to its parent. -/
def releaseChildren (n : Name) (parent : Option Name) : List Name → Rib → Option Rib
  | [], rib => some rib
  | c :: cs, rib =>
      (rib.removeChild n c).bind fun rib =>
        match parent with
        | none => releaseChildren n parent cs rib
        | some p => (rib.addChild p c).bind (releaseChildren n parent cs)

/-- `Rib::eraseEntry`. -/
def eraseEntry : Option Rib :=
  match rib.find n with
  | none => some rib
  | some e =>
      (rib.unlinkParent n e.parent).bind fun rib =>
        (releaseChildren n e.parent e.children rib).map fun rib =>
          { rib with
            entries := Function.update rib.entries n none
            names := rib.names.filter fun m => decide (m ≠ n) }

/-- `Rib::erase`. -/
def erase : Option Rib :=
  match rib.find n with
  | none => some rib
  | some e =>
      match e.findRoute r with
      | none => some rib
      | some _ =>
          let erased := (e.eraseRoute r).1
          let rib := { rib.modifyEntry n fun e => (e.eraseRoute r).1 with
            nItems := rib.nItems - 1
            cancelled := rib.cancelled ++ (e.eraseRoute r).2.toList
            faceMap :=
              if erased.hasFaceId r.faceId then rib.faceMap
              else Function.update rib.faceMap r.faceId
                ((rib.faceMap r.faceId).filter fun m => decide (m ≠ n)) }
          if erased.routes.isEmpty then rib.eraseEntry n else some rib

/-- The loop of `getAncestorRoutes`, from a parent upwards. -/
def collectAncestorRoutes (rib : Rib) : ℕ → Option Name → RouteSet → RouteSet
  | 0, _, s => s
  | _ + 1, none, s => s
  | fuel + 1, some p, s =>
      match rib.find p with
      | none => s
      | some e =>
          let s := (e.routes.filter Route.isChildInherit).foldl RouteSet.insert s
          if e.hasCapture then s else collectAncestorRoutes rib fuel e.parent s

/-- `Rib::getAncestorRoutes` of an entry; each parent has a shorter name. -/
def getAncestorRoutes (e : RibEntry) : RouteSet :=
  rib.collectAncestorRoutes (e.name.length + 1) e.parent []

/-- `Rib::getAncestorRoutes` of a name. -/
def getAncestorRoutesOfName : RouteSet :=
  rib.collectAncestorRoutes (n.length + 1) (rib.findParent n) []

/-- The table with the given entries. -/
def ofEntries (es : List RibEntry) : Rib where
  entries n := es.find? fun e => decide (e.name = n)
  names := es.map RibEntry.name
  faceMap f := es.flatMap fun e =>
    (e.routes.filter fun r => r.compareFaceId f).map fun _ => e.name
  nItems := (es.map RibEntry.getNRoutes).sum
  cancelled := []

end Rib

/-! ### Small tables -/

namespace SmallRib

/-- A route with neither an expiration time nor an event. -/
def route (faceId origin flags cost : ℕ) : Route :=
  ⟨faceId, origin, flags, cost, 0, none⟩

/-- The name `/a`. -/
def a : Name := [.generic [97]]

/-- The name `/a/b`. -/
def ab : Name := [.generic [97], .generic [98]]

end SmallRib

end IcnDemo
