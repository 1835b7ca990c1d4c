import IcnDemo.Rib.Defs

/-!
# The FIB updater

`rib/fib-updater.cpp` computes, for one change of the RIB, the changes of the FIB and of the
inherited routes of other entries.  Nothing is changed while they are computed; afterwards the FIB
commands are sent, and when they have succeeded the RIB is changed and the inherited routes are
added to and removed from its entries.

The walk through a subtree follows the pointers to the children; the length of the longest name
bounds its depth.
-/

namespace IcnDemo

/-- `FibUpdate::Action`. -/
inductive FibAction where
  | addNextHop
  | removeNextHop
deriving DecidableEq, Repr

/-- `rib::FibUpdate`. -/
structure FibUpdate where
  name : Name
  faceId : ℕ
  cost : ℕ
  action : FibAction
deriving DecidableEq, Repr

namespace FibUpdate

/-- `FibUpdate::createAddUpdate`. -/
def createAddUpdate (n : Name) (faceId cost : ℕ) : FibUpdate :=
  ⟨n, faceId, cost, .addNextHop⟩

/-- `FibUpdate::createRemoveUpdate`. -/
def createRemoveUpdate (n : Name) (faceId : ℕ) : FibUpdate :=
  ⟨n, faceId, 0, .removeNextHop⟩

end FibUpdate

/-- `RibUpdate::Action`. -/
inductive RibAction where
  | register
  | unregister
  | removeFace
deriving DecidableEq, Repr

/-- `rib::RibUpdate`. -/
structure RibUpdate where
  action : RibAction
  name : Name
  route : Route
deriving DecidableEq, Repr

/-- What a `FibUpdater` accumulates for one batch, and the events it cancels on the way. -/
structure FibUpdater where
  batchFaceId : ℕ
  updatesForBatchFaceId : List FibUpdate
  updatesForNonBatchFaceId : List FibUpdate
  inheritedRoutes : List RibUpdate
  cancelled : List ℕ
deriving DecidableEq, Repr

namespace FibUpdater

/-- The updater at the start of a batch. -/
def start (batchFaceId : ℕ) : FibUpdater :=
  ⟨batchFaceId, [], [], [], []⟩

/-! ### Elementary changes -/

/-- An update for the same name and face. -/
def samePlace (update other : FibUpdate) : Bool :=
  Name.equals update.name other.name && update.faceId == other.faceId

/-- Replace the update for the same place, or append. -/
def mergeUpdate (updates : List FibUpdate) (update : FibUpdate) : List FibUpdate :=
  if updates.any (samePlace update) then
    Rib.replaceFirst (samePlace update)
      (fun other => { other with action := update.action, cost := update.cost }) updates
  else updates ++ [update]

variable (rib : Rib) (u : FibUpdater) (n : Name) (e : RibEntry)

/-- `FibUpdater::addFibUpdate`. -/
def addFibUpdate (update : FibUpdate) : FibUpdater :=
  if update.faceId = u.batchFaceId then
    { u with updatesForBatchFaceId := mergeUpdate u.updatesForBatchFaceId update }
  else { u with updatesForNonBatchFaceId := mergeUpdate u.updatesForNonBatchFaceId update }

variable (routesToAdd : RouteSet) (r existingRoute : Route)

/-- `FibUpdater::addInheritedRoute`. -/
def addInheritedRoute : FibUpdater :=
  { u with inheritedRoutes := u.inheritedRoutes ++ [⟨.register, n, r⟩] }

/-- `FibUpdater::removeInheritedRoute`. -/
def removeInheritedRoute : FibUpdater :=
  { u with inheritedRoutes := u.inheritedRoutes ++ [⟨.unregister, n, r⟩] }

/-- Record an inherited route and its next hop. -/
def inheritRoute : FibUpdater :=
  (u.addInheritedRoute n r).addFibUpdate (.createAddUpdate n r.faceId r.cost)

/-- Remove an inherited route and its next hop. -/
def disinheritRoute : FibUpdater :=
  (u.removeInheritedRoute n r).addFibUpdate (.createRemoveUpdate n r.faceId)

/-- `FibUpdater::addInheritedRoutes` for an entry. -/
def addInheritedRoutes : FibUpdater :=
  routesToAdd.foldl (fun u r => if e.hasFaceId r.faceId then u else u.inheritRoute e.name r) u

/-- `FibUpdater::addInheritedRoutes` for a name and a route to ignore. -/
def addInheritedRoutesOfName (ignore : Route) : FibUpdater :=
  routesToAdd.foldl (fun u r => if r.faceId = ignore.faceId then u else u.inheritRoute n r) u

/-- `FibUpdater::removeInheritedRoutes`. -/
def removeInheritedRoutes (routesToRemove : RouteSet) : FibUpdater :=
  routesToRemove.foldl (fun u r => if e.hasInheritedRoute r then u.disinheritRoute e.name r else u)
    u

/-! ### Subtrees -/

/-- The first loop of `traverseSubTree`; it drops the faces on which the entry has a child-inherit
route of its own. -/
def removeLoop (e : RibEntry) : RouteSet → FibUpdater → RouteSet × FibUpdater
  | [], u => ([], u)
  | r :: rs, u =>
      if e.hasChildInheritOnFaceId r.faceId then removeLoop e rs u
      else
        let next := removeLoop e rs
          (if e.hasInheritedRoute r then u.disinheritRoute e.name r else u)
        (r :: next.1, next.2)

/-- The second loop of `traverseSubTree`. -/
def addLoop (e : RibEntry) : RouteSet → FibUpdater → RouteSet × FibUpdater
  | [], u => ([], u)
  | r :: rs, u =>
      if e.hasChildInheritOnFaceId r.faceId then addLoop e rs u
      else
        let next := addLoop e rs
          (if e.hasFaceId r.faceId then u else u.inheritRoute e.name r)
        (r :: next.1, next.2)

/-- `FibUpdater::traverseSubTree` over a list of children; an entry that captures is left alone
with everything below it. -/
def traverseChildren (rib : Rib) : ℕ → List Name → RouteSet → RouteSet → FibUpdater → FibUpdater
  | 0, _, _, _, u => u
  | fuel + 1, children, routesToAdd, routesToRemove, u =>
      children.foldl (fun u c =>
        match rib.find c with
        | none => u
        | some e =>
            if e.hasCapture then u
            else
              let removed := removeLoop e routesToRemove u
              let added := addLoop e routesToAdd removed.2
              traverseChildren rib fuel e.children added.1 removed.1 added.2) u

/-- The length of the longest name. -/
def maxLength : ℕ :=
  (rib.names.map List.length).foldr max 0

/-- `FibUpdater::modifyChildrensInheritedRoutes`. -/
def modifyChildrensInheritedRoutes (children : List Name)
    (routesToAdd routesToRemove : RouteSet) : FibUpdater :=
  traverseChildren rib (maxLength rib + 1) children routesToAdd routesToRemove u

/-! ### Registration -/

/-- `FibUpdater::createFibUpdatesForNewRibEntry`. -/
def createFibUpdatesForNewRibEntry (children : List Name) : FibUpdater :=
  let u := u.addFibUpdate (.createAddUpdate n r.faceId r.cost)
  let ancestorRoutes := rib.getAncestorRoutesOfName n
  match r.isChildInherit, r.isCapture with
  | false, false => u.addInheritedRoutesOfName n ancestorRoutes r
  | true, true =>
      modifyChildrensInheritedRoutes rib u children (RouteSet.insert [] r) ancestorRoutes
  | true, false =>
      let u := u.addInheritedRoutesOfName n ancestorRoutes r
      modifyChildrensInheritedRoutes rib u children
        (RouteSet.insert (RouteSet.erase ancestorRoutes r) r) []
  | false, true => modifyChildrensInheritedRoutes rib u children [] ancestorRoutes

/-- Is the cost no higher than that of another route, if there is one? -/
def noWorse : Option Route → Bool
  | none => true
  | some other => decide (r.cost ≤ other.cost)

/-- `FibUpdater::createFibUpdatesForNewRoute`. -/
def createFibUpdatesForNewRoute (captureWasTurnedOn : Bool) : FibUpdater :=
  let prevRoute := e.getRouteWithLowestCostAndChildInheritByFaceId r.faceId
  let routesToAdd : RouteSet :=
    if r.isChildInherit && noWorse r prevRoute then RouteSet.insert [] r else []
  let routesToRemove : RouteSet := if captureWasTurnedOn then rib.getAncestorRoutes e else []
  let u := if captureWasTurnedOn then u.removeInheritedRoutes e routesToRemove else u
  let u := modifyChildrensInheritedRoutes rib u e.children routesToAdd routesToRemove
  if noWorse r (e.getRouteWithLowestCostByFaceId r.faceId) then
    u.addFibUpdate (.createAddUpdate e.name r.faceId r.cost)
  else u

/-- The first part of `createFibUpdatesForUpdatedRoute`: the next hop of the entry itself.  A null
`prevRoute` may be dereferenced here. -/
def updateOwnNextHop : Option FibUpdater :=
  match e.getRouteWithLowestCostByFaceId r.faceId with
  | none => none
  | some lowest =>
      if r.cost ≤ lowest.cost then
        some (u.addFibUpdate (.createAddUpdate e.name r.faceId r.cost))
      else if existingRoute.cost < lowest.cost then
        match e.getRouteWithLowestCostAndChildInheritByFaceId r.faceId with
        | none => none
        | some prevRoute =>
            some (u.addFibUpdate (.createAddUpdate e.name prevRoute.faceId prevRoute.cost))
      else some u

/-- The part of `createFibUpdatesForUpdatedRoute` about the child-inherit flag. -/
def updateChildInherit : FibUpdater :=
  let prevRoute := e.getRouteWithLowestCostAndChildInheritByFaceId r.faceId
  match existingRoute.isChildInherit, r.isChildInherit with
  | false, true =>
      if noWorse r prevRoute then
        modifyChildrensInheritedRoutes rib u e.children (RouteSet.insert [] r) []
      else u
  | true, false =>
      let routesToAdd : RouteSet := match prevRoute with
        | some prev => RouteSet.insert [] prev
        | none => match RouteSet.find (rib.getAncestorRoutes e) r with
          | some ancestor => RouteSet.insert [] ancestor
          | none => []
      modifyChildrensInheritedRoutes rib u e.children routesToAdd (RouteSet.insert [] r)
  | _, _ => u

/-- The part of `createFibUpdatesForUpdatedRoute` about the capture flag. -/
def updateCapture : FibUpdater :=
  let ancestorRoutes := rib.getAncestorRoutes e
  match existingRoute.isCapture, r.isCapture with
  | false, true =>
      modifyChildrensInheritedRoutes rib (u.removeInheritedRoutes e ancestorRoutes) e.children []
        ancestorRoutes
  | true, false =>
      modifyChildrensInheritedRoutes rib (u.addInheritedRoutes e ancestorRoutes) e.children
        ancestorRoutes []
  | _, _ => u

/-- `FibUpdater::createFibUpdatesForUpdatedRoute`; the entry has the new route already. -/
def createFibUpdatesForUpdatedRoute : Option FibUpdater :=
  let costDidChange := r.cost ≠ existingRoute.cost
  let prevRoute := e.getRouteWithLowestCostAndChildInheritByFaceId r.faceId
  if r.flags = existingRoute.flags ∧ ¬ costDidChange then some u
  else
    (if costDidChange then u.updateOwnNextHop e r existingRoute else some u).map fun u =>
      if costDidChange ∧ noWorse r prevRoute = true ∧ r.flags = existingRoute.flags ∧
          r.isChildInherit = true then
        modifyChildrensInheritedRoutes rib u e.children (RouteSet.insert [] r) []
      else updateCapture rib (updateChildInherit rib u e r existingRoute) e r existingRoute

/-- `FibUpdater::computeUpdatesForRegistration`. -/
def computeUpdatesForRegistration : Option FibUpdater :=
  match rib.find n with
  | some e =>
      match e.findRoute r with
      | none =>
          some (createFibUpdatesForNewRoute rib u e r (!e.hasCapture && r.isCapture))
      | some existingRoute =>
          let entryCopy := { e with
            routes := Rib.replaceFirst (fun x => x.compareFaceIdAndOrigin r)
              (fun x => { x with flags := r.flags, cost := r.cost, expires := r.expires })
              e.routes }
          createFibUpdatesForUpdatedRoute rib u entryCopy r existingRoute
  | none =>
      let parent := rib.findParent n
      let children := (rib.findDescendantsForNonInsertedName n).filter fun d =>
        decide (rib.parentOf d = parent)
      some (createFibUpdatesForNewRibEntry rib u n r children)

/-! ### Unregistration -/

/-- `FibUpdater::createFibUpdatesForErasedRoute`; the entry is without the route already. -/
def createFibUpdatesForErasedRoute (captureWasTurnedOff : Bool) : FibUpdater :=
  let u := u.addFibUpdate (.createRemoveUpdate e.name r.faceId)
  let ancestorRoutes := rib.getAncestorRoutes e
  let readd := captureWasTurnedOff && e.getNRoutes != 0
  let u := match r.isChildInherit, r.isCapture with
    | true, true =>
        modifyChildrensInheritedRoutes rib
          (if readd then u.addInheritedRoutes e ancestorRoutes else u) e.children
          (if readd then ancestorRoutes else []) (RouteSet.insert [] r)
    | true, false =>
        modifyChildrensInheritedRoutes rib u e.children
          (if e.hasCapture then [] else ancestorRoutes) (RouteSet.insert [] r)
    | false, true =>
        modifyChildrensInheritedRoutes rib
          (if readd then u.addInheritedRoutes e ancestorRoutes else u) e.children
          (if readd then ancestorRoutes else []) []
    | false, false => u
  if !e.hasCapture && e.getNRoutes != 0 then
    match RouteSet.find ancestorRoutes r with
    | some ancestor => u.inheritRoute e.name ancestor
    | none => u
  else u

/-- `FibUpdater::createFibUpdatesForErasedRibEntry`. -/
def createFibUpdatesForErasedRibEntry : FibUpdater :=
  e.inheritedRoutes.foldl (fun u r => u.addFibUpdate (.createRemoveUpdate e.name r.faceId)) u

/-- `FibUpdater::computeUpdatesForUnregistration`.  Reading through the dangling pointer is
undefined. -/
def computeUpdatesForUnregistration : Option FibUpdater :=
  match rib.find n with
  | none => some u
  | some e =>
      match e.findRoute r with
      | none => some u
      | some existing =>
          let temp := (e.eraseRoute r).1
          let u := { u with cancelled := u.cancelled ++ (e.eraseRoute r).2.toList }
          let captureWasTurnedOff := e.hasCapture && !temp.hasCapture
          let u := createFibUpdatesForErasedRoute rib u temp existing captureWasTurnedOff
          match e.getRouteWithSecondLowestCostByFaceId r.faceId with
          | .dangling => none
          | .null =>
              if e.getNRoutes = 1 then some (u.createFibUpdatesForErasedRibEntry e) else some u

/-- `FibUpdater::computeUpdates` for a batch of one update. -/
def computeUpdates (update : RibUpdate) : Option FibUpdater :=
  let u := start update.route.faceId
  match update.action with
  | .register => computeUpdatesForRegistration rib u update.name update.route
  | .unregister => computeUpdatesForUnregistration rib u update.name update.route
  | .removeFace =>
      (computeUpdatesForUnregistration rib u update.name update.route).map fun u =>
        { u with updatesForBatchFaceId := [] }

end FibUpdater

/-! ### Applying the updates -/

namespace Rib

/-- One step of `Rib::modifyInheritedRoutes`. -/
def modifyInheritedRoute (rib : Rib) (update : RibUpdate) : Option Rib :=
  match rib.find update.name with
  | none => none
  | some e =>
      match update.action with
      | .register => some (rib.modifyEntry update.name fun e => e.addInheritedRoute update.route)
      | .unregister => (e.removeInheritedRoute update.route).map fun e =>
          rib.modifyEntry update.name fun _ => e
      | .removeFace => some rib

/-- `Rib::modifyInheritedRoutes`. -/
def modifyInheritedRoutes (rib : Rib) : List RibUpdate → Option Rib
  | [] => some rib
  | update :: updates => (rib.modifyInheritedRoute update).bind fun rib =>
      modifyInheritedRoutes rib updates

/-- The loop of `Rib::onFibUpdateSuccess` over the batch, which has one update. -/
def changeRoutes (rib : Rib) (update : RibUpdate) : Option Rib :=
  match update.action with
  | .register => rib.insert update.name update.route
  | .unregister | .removeFace => rib.erase update.name update.route

/-- The part of `Rib::onFibUpdateSuccess` that changes the table. -/
def onFibUpdateSuccess (rib : Rib) (update : RibUpdate) (inheritedRoutes : List RibUpdate) :
    Option Rib :=
  (rib.changeRoutes update).bind fun rib => rib.modifyInheritedRoutes inheritedRoutes

end Rib

end IcnDemo
