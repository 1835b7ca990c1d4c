import IcnDemo.Rib.FibUpdater

/-!
# What a computation of updates keeps

The updater collects FIB commands and changes of inherited routes, by `addFibUpdate`,
`addInheritedRoute` and `removeInheritedRoute`.  What these three keep is kept by the computation of
a whole batch (`Closed`), apart from the events that an unregistration cancels.
-/

namespace IcnDemo.FibUpdater

/-- Collecting keeps a property. -/
structure Closed (P : FibUpdater → Prop) : Prop where
  addFibUpdate : ∀ {u}, P u → ∀ v, P (u.addFibUpdate v)
  addInheritedRoute : ∀ {u}, P u → ∀ n r, P (u.addInheritedRoute n r)
  removeInheritedRoute : ∀ {u}, P u → ∀ n r, P (u.removeInheritedRoute n r)

namespace Closed

variable {P : FibUpdater → Prop} {u : FibUpdater}

theorem inheritRoute (hP : Closed P) (h : P u) (n : Name) (r : Route) : P (u.inheritRoute n r) :=
  hP.addFibUpdate (hP.addInheritedRoute h n r) _

/-- A route that is no longer inherited. -/
theorem disinheritRoute (hP : Closed P) (h : P u) (n : Name) (r : Route) :
    P (u.disinheritRoute n r) :=
  hP.addFibUpdate (hP.removeInheritedRoute h n r) _

theorem foldl {ι : Type} {g : FibUpdater → ι → FibUpdater} (hg : ∀ u i, P u → P (g u i)) (h : P u)
    (l : List ι) : P (l.foldl g u) := by
  induction l generalizing u with
  | nil => exact h
  | cons i l ih => exact ih (hg u i h)

variable {v : FibUpdater}

theorem ite (p : Prop) [Decidable p] (h : P u) (hv : P v) : P (if p then u else v) := by
  split
  · exact h
  · exact hv

variable (hP : Closed P)

include hP

/-- Inherited routes of an entry. -/
theorem addInheritedRoutes (h : P u) (e : RibEntry) (rs : RouteSet) :
    P (u.addInheritedRoutes e rs) :=
  foldl (P := P) (fun _ r hu => ite _ hu (hP.inheritRoute hu e.name r)) h rs

/-- Inherited routes of a name. -/
theorem addInheritedRoutesOfName (h : P u) (n : Name) (rs : RouteSet)
    (r : Route) : P (u.addInheritedRoutesOfName n rs r) :=
  foldl (P := P) (fun _ x hu => ite _ hu (hP.inheritRoute hu n x)) h rs

/-- Inherited routes that are removed. -/
theorem removeInheritedRoutes (h : P u) (e : RibEntry) (rs : RouteSet) :
    P (u.removeInheritedRoutes e rs) :=
  foldl (P := P) (fun _ r hu => ite _ (hP.disinheritRoute hu e.name r) hu) h rs

/-- The loop that removes inherited routes. -/
theorem removeLoop (e : RibEntry) (rs : RouteSet) :
    ∀ {u : FibUpdater}, P u → P (removeLoop e rs u).2 := by
  induction rs with
  | nil => exact fun h => h
  | cons r rs ih => grind [removeLoop, hP.disinheritRoute]

/-- The loop that adds inherited routes. -/
theorem addLoop (e : RibEntry) (rs : RouteSet) :
    ∀ {u : FibUpdater}, P u → P (addLoop e rs u).2 := by
  induction rs with
  | nil => exact fun h => h
  | cons r rs ih => grind [addLoop, hP.inheritRoute]

/-- The traversal of the children. -/
theorem traverseChildren (rib : Rib) (fuel : ℕ) :
    ∀ {u : FibUpdater} (children : List Name) (add remove : RouteSet), P u →
      P (FibUpdater.traverseChildren rib fuel children add remove u) := by
  induction fuel with
  | zero => exact fun _ _ _ h => h
  | succ fuel ih =>
    intro u children add remove h
    unfold FibUpdater.traverseChildren
    refine foldl (fun u c hu => ?_) h children
    grind [hP.addLoop, hP.removeLoop]

variable (h : P u)

include h

/-- The change of the children. -/
theorem modifyChildren (rib : Rib) (children : List Name)
    (add remove : RouteSet) : P (modifyChildrensInheritedRoutes rib u children add remove) :=
  hP.traverseChildren rib _ children add remove h

theorem newRibEntry (rib : Rib) (n : Name) (r : Route)
    (children : List Name) : P (createFibUpdatesForNewRibEntry rib u n r children) := by
  have hown := hP.addFibUpdate h (.createAddUpdate n r.faceId r.cost)
  grind [createFibUpdatesForNewRibEntry, hP.addInheritedRoutesOfName, hP.modifyChildren]

theorem newRoute (rib : Rib) (e : RibEntry) (r : Route) (on : Bool) :
    P (createFibUpdatesForNewRoute rib u e r on) := by
  have hremoved := hP.removeInheritedRoutes h e (if on then rib.getAncestorRoutes e else [])
  have hchildren := hP.modifyChildren (ite (on = true) hremoved h) rib e.children
  exact ite _ (hP.addFibUpdate (hchildren _ _) _) (hchildren _ _)

/-- The next hop of an updated route. -/
theorem updateOwnNextHop {e : RibEntry} {r x : Route}
    (hv : u.updateOwnNextHop e r x = some v) : P v := by
  unfold FibUpdater.updateOwnNextHop at hv
  grind [hP.addFibUpdate]

/-- The flag for children of an updated route. -/
theorem updateChildInherit (rib : Rib) (e : RibEntry) (r x : Route) :
    P (FibUpdater.updateChildInherit rib u e r x) := by
  unfold FibUpdater.updateChildInherit
  grind [hP.modifyChildren]

/-- The capture flag of an updated route. -/
theorem updateCapture (rib : Rib) (e : RibEntry) (r x : Route) :
    P (FibUpdater.updateCapture rib u e r x) := by
  unfold FibUpdater.updateCapture
  grind [hP.modifyChildren, hP.removeInheritedRoutes, hP.addInheritedRoutes]

theorem updatedRoute {rib : Rib} {e : RibEntry} {r x : Route}
    (hv : createFibUpdatesForUpdatedRoute rib u e r x = some v) : P v := by
  unfold createFibUpdatesForUpdatedRoute at hv
  dsimp only at hv
  split at hv
  · cases hv
    exact h
  · obtain ⟨w, hw, rfl⟩ := Option.map_eq_some_iff.mp hv
    grind [hP.updateOwnNextHop, hP.modifyChildren, hP.updateCapture, hP.updateChildInherit]

theorem erasedRoute (rib : Rib) (e : RibEntry) (r : Route)
    (off : Bool) : P (createFibUpdatesForErasedRoute rib u e r off) := by
  have hown := hP.addFibUpdate h (.createRemoveUpdate e.name r.faceId)
  grind [hP.addInheritedRoutes, hP.inheritRoute, createFibUpdatesForErasedRoute, hP.modifyChildren]

theorem registration {rib : Rib} {n : Name} {r : Route}
    (hv : computeUpdatesForRegistration rib u n r = some v) : P v := by
  unfold computeUpdatesForRegistration at hv
  grind [hP.newRoute, hP.updatedRoute, hP.newRibEntry]

end Closed

/-- The event that an unregistration cancels: that of the route to be erased. -/
def cancelledBy (rib : Rib) (n : Name) (r : Route) : Option ℕ :=
  (rib.find n).bind fun e => (e.findRoute r).bind Route.expirationEvent

/-- An unregistration, which cancels an event. -/
theorem Closed.unregistration {P : FibUpdater → Prop} {u : FibUpdater} (hP : Closed P) {rib : Rib}
    {n : Name} {r : Route}
    (h : P { u with cancelled := u.cancelled ++ (cancelledBy rib n r).toList }) {v : FibUpdater}
    (hv : computeUpdatesForUnregistration rib u n r = some v) : P v := by
  unfold computeUpdatesForUnregistration at hv
  rcases hfind : rib.find n with _ | e
  · simp only [hfind] at hv
    cases hv
    simpa [cancelledBy, hfind] using h
  rcases hroute : e.findRoute r with _ | x
  · simp_all [cancelledBy]
  have hevent : (e.eraseRoute r).2 = cancelledBy rib n r := by
    simp [RibEntry.eraseRoute, cancelledBy, hfind, hroute]
  simp only [hfind, hroute, hevent] at hv
  split at hv
  · cases hv
  split at hv
  · cases hv
    exact Closed.foldl (P := P) (fun _ _ hw => hP.addFibUpdate hw _) (hP.erasedRoute h _ _ _ _) _
  · cases hv
    exact hP.erasedRoute h _ _ _ _

/-- Only an unregistration cancels an event. -/
theorem cancelled_computeUpdates {rib : Rib} {update : RibUpdate} {u : FibUpdater}
    (hu : computeUpdates rib update = some u) :
    u.cancelled = match update.action with
      | .register => []
      | _ => (cancelledBy rib update.name update.route).toList := by
  have hclosed : ∀ l : List ℕ, Closed fun u => u.cancelled = l := by
    intro l
    refine ⟨fun {u} h v => ?_, fun h _ _ => h, fun h _ _ => h⟩
    unfold addFibUpdate
    split
    · exact h
    · exact h
  unfold computeUpdates at hu
  cases haction : update.action with
  | register =>
    simp only [haction] at hu
    exact (hclosed []).registration rfl hu
  | unregister =>
    simp only [haction] at hu
    exact (hclosed _).unregistration rfl hu
  | removeFace =>
    simp only [haction] at hu
    obtain ⟨v, hv, rfl⟩ := Option.map_eq_some_iff.mp hu
    exact (hclosed _).unregistration rfl hv

end IcnDemo.FibUpdater
