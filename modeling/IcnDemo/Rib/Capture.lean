import IcnDemo.Lib.Runs
import IcnDemo.Rib.Defs

/-!
# The capture counter

Insertions and erasures of routes in any order.  They rearrange the links between entries and change
the routes of one entry.  An update of a route does not touch the capture counter of its entry, so
the counters are right as long as no update changes the flag.
-/

namespace IcnDemo

open List Function

/-- The capture counter and `hasCapture` are right, and no erasure decrements 0. -/
structure RibEntry.CountsCapture (e : RibEntry) : Prop where
  counter : e.nRoutesWithCaptureSet = e.routes.countP Route.isCapture
  hasCapture : e.hasCapture = true ↔ ∃ r ∈ e.routes, r.isCapture = true
  positive : ∀ r x, e.findRoute r = some x → x.isCapture = true → 0 < e.nRoutesWithCaptureSet

namespace Rib

/-! ### Links -/

/-- The routes of an entry and its capture counter. -/
def countsOf (e : RibEntry) : List Route × ℕ :=
  (e.routes, e.nRoutesWithCaptureSet)

/-- The counts of all entries. -/
def counts (rib : Rib) (y : Name) : Option (List Route × ℕ) :=
  (rib.entries y).map countsOf

variable {rib rib' : Rib} {n p c : Name} {parent : Option Name} {cs : List Name} {e : RibEntry}
  {r : Route}

/-- The counts when one entry changes. -/
theorem counts_update (o : Option RibEntry) (h : rib'.entries = update rib.entries n o) :
    rib'.counts = update rib.counts n (o.map countsOf) := by
  funext y
  rw [counts, h]
  exact apply_update (fun _ => Option.map countsOf) rib.entries n o y

/-- The counts when an entry is changed in place. -/
theorem counts_modifyEntry {g : RibEntry → RibEntry} (he : rib.entries n = some e)
    (h : rib'.entries = (rib.modifyEntry n g).entries) :
    rib'.counts = update rib.counts n (some (countsOf (g e))) := by
  rw [modifyEntry, he] at h
  exact counts_update _ h

/-- Links do not count. -/
theorem counts_setLinks (o : Option Name) (g : List Name → List Name) :
    ((rib.modifyEntry c fun e => { e with parent := o }).modifyEntry p fun e =>
      { e with children := g e.children }).counts = rib.counts := by
  have hsame (rib : Rib) (n : Name) {f : RibEntry → RibEntry}
      (hf : countsOf ∘ f = countsOf) : (rib.modifyEntry n f).counts = rib.counts := by
    rw [counts_update _ rfl, Option.map_map, hf]
    exact update_eq_self n rib.counts
  rw [hsame, hsame] <;> rfl

/-- A new child leaves the counts. -/
theorem counts_addChild (h : rib.addChild p c = some rib') : rib'.counts = rib.counts := by
  unfold addChild at h
  split_ifs at h
  cases h
  exact counts_setLinks (some p) (· ++ [c])

/-- A child that is taken away leaves the counts. -/
theorem counts_removeChild (h : rib.removeChild p c = some rib') : rib'.counts = rib.counts := by
  unfold removeChild at h
  split_ifs at h
  cases h
  exact counts_setLinks none (filter fun x => decide (x ≠ c))

/-- New children leave the counts. -/
theorem counts_adoptChildren (h : adoptChildren n parent cs rib = some rib') :
    rib'.counts = rib.counts := by
  induction cs generalizing rib with
  | nil =>
    cases h
    rfl
  | cons c cs ih =>
    unfold adoptChildren at h
    split_ifs at h
    · rcases parent with _ | p
      · obtain ⟨rib₁, hadd, hrest⟩ := Option.bind_eq_some_iff.mp h
        exact (ih hrest).trans (counts_addChild hadd)
      · obtain ⟨rib₁, hremove, hrest⟩ := Option.bind_eq_some_iff.mp h
        obtain ⟨rib₂, hadd, hrest⟩ := Option.bind_eq_some_iff.mp hrest
        exact ((ih hrest).trans (counts_addChild hadd)).trans (counts_removeChild hremove)
    · exact ih h

/-- Children that are handed over leave the counts. -/
theorem counts_releaseChildren (h : releaseChildren n parent cs rib = some rib') :
    rib'.counts = rib.counts := by
  induction cs generalizing rib with
  | nil =>
    cases h
    rfl
  | cons c cs ih =>
    obtain ⟨rib₁, hremove, hrest⟩ := Option.bind_eq_some_iff.mp h
    rw [← counts_removeChild hremove]
    rcases parent with _ | p
    · exact ih hrest
    · obtain ⟨rib₂, hadd, hrest⟩ := Option.bind_eq_some_iff.mp hrest
      exact (ih hrest).trans (counts_addChild hadd)

/-- A new entry has one route. -/
theorem counts_insertEntry (h : rib.insertEntry n r = some rib') :
    rib'.counts = update rib.counts n (some ([r], if r.isCapture then 1 else 0)) := by
  obtain ⟨rib₁, hlink, hrest⟩ := Option.bind_eq_some_iff.mp h
  obtain ⟨rib₂, hadopt, rfl⟩ := Option.map_eq_some_iff.mp hrest
  change rib₂.counts = _
  rw [counts_adoptChildren hadopt]
  unfold linkParent at hlink
  split at hlink
  · cases hlink
    exact counts_update (some ((RibEntry.create n).insertRoute r)) rfl
  · rw [counts_addChild hlink]
    exact counts_update (some ((RibEntry.create n).insertRoute r)) rfl

/-- The counts of an entry are gone with it. -/
theorem counts_eraseEntry (he : rib.entries n = some e) (h : rib.eraseEntry n = some rib') :
    rib'.counts = update rib.counts n none := by
  unfold eraseEntry find at h
  rw [he] at h
  obtain ⟨rib₁, hunlink, hrest⟩ := Option.bind_eq_some_iff.mp h
  obtain ⟨rib₂, hrelease, rfl⟩ := Option.map_eq_some_iff.mp hrest
  rw [counts_update none rfl, counts_releaseChildren hrelease]
  unfold unlinkParent at hunlink
  split at hunlink
  · cases hunlink
    rfl
  · rw [counts_removeChild hunlink]
    rfl

/-! ### Counters -/

/-- The counter is the number of routes with the flag. -/
def Exact (d : List Route × ℕ) : Prop :=
  d.2 = d.1.countP Route.isCapture

/-- All counters are right. -/
def Counted (rib : Rib) : Prop :=
  ∀ n, ∀ d ∈ rib.counts n, Exact d

/-- The rest follows from the counters. -/
theorem counted_iff : Counted rib ↔ ∀ n e, rib.entries n = some e → e.CountsCapture := by
  constructor
  · intro h n e he
    have hexact : e.nRoutesWithCaptureSet = e.routes.countP Route.isCapture :=
      h n (countsOf e) (by rw [counts, he]; rfl)
    have hpos : 0 < e.nRoutesWithCaptureSet ↔ ∃ r ∈ e.routes, r.isCapture = true := by
      rw [hexact, countP_pos_iff]
    refine ⟨hexact, ?_, fun r x hx hflag => hpos.mpr ⟨x, mem_of_find?_eq_some hx, hflag⟩⟩
    rw [← hpos, RibEntry.hasCapture, decide_eq_true_iff]
  · intro h n d hd
    obtain ⟨e, he, rfl⟩ := Option.map_eq_some_iff.mp hd
    exact (h n e he).counter

/-- When one entry changes, its new counter matters. -/
theorem Counted.update_iff (h : Counted rib) {o : Option (List Route × ℕ)}
    (hcounts : rib'.counts = update rib.counts n o) : Counted rib' ↔ ∀ d ∈ o, Exact d := by
  unfold Counted
  rw [hcounts]
  constructor
  · intro h' d hd
    exact h' n d (by rwa [update_self])
  · intro ho m d hd
    rw [update_apply] at hd
    split_ifs at hd
    · exact ho d hd
    · exact h m d hd

/-- The first element that meets a condition is erased or replaced. -/
theorem split_of_find? {α : Type} {cond : α → Bool} {l : List α} {x : α} (f : α → α)
    (h : l.find? cond = some x) : ∃ l₁ l₂, l = l₁ ++ x :: l₂ ∧ l.eraseP cond = l₁ ++ l₂ ∧
      replaceFirst cond f l = l₁ ++ f x :: l₂ := by
  induction l with
  | nil => cases h
  | cons y l ih =>
    by_cases hy : cond y = true
    · rw [find?_cons_of_pos hy] at h
      cases h
      exact ⟨[], l, rfl, by simp [hy], by simp [replaceFirst, hy]⟩
    · rw [find?_cons_of_neg hy] at h
      obtain ⟨l₁, l₂, rfl, herase, hreplace⟩ := ih h
      exact ⟨y :: l₁, l₂, rfl, by simp [hy, herase], by simp [replaceFirst, hy, hreplace]⟩

section

variable {x : Route} (h : Exact (countsOf e))

include h

/-- A new route is counted. -/
theorem exact_insertRoute (hx : e.findRoute r = none) : Exact (countsOf (e.insertRoute r)) := by
  have hcount : e.nRoutesWithCaptureSet = e.routes.countP Route.isCapture := h
  rw [RibEntry.insertRoute, hx]
  cases hflag : r.isCapture <;> simp [Exact, countsOf, hcount, hflag]

/-- An erased route is no longer counted. -/
theorem exact_eraseRoute (hx : e.findRoute r = some x) : Exact (countsOf (e.eraseRoute r).1) := by
  have hcount : e.nRoutesWithCaptureSet = e.routes.countP Route.isCapture := h
  obtain ⟨l₁, l₂, hroutes, herase, -⟩ := split_of_find? id hx
  rw [RibEntry.eraseRoute, hx, countsOf]
  simp only [herase]
  rw [hcount, hroutes]
  cases hflag : x.isCapture <;> simp [Exact, hflag, RibEntry.decrement]

/-- An update of a route is not counted. -/
theorem exact_updateRoute_iff (hx : e.findRoute r = some x) : Exact (countsOf { e with
      routes := replaceFirst (fun x => x.compareFaceIdAndOrigin r) (updateRoute r) e.routes }) ↔
    x.isCapture = r.isCapture := by
  have hcount : e.nRoutesWithCaptureSet = e.routes.countP Route.isCapture := h
  have hupdate : (updateRoute r x).isCapture = r.isCapture := rfl
  obtain ⟨l₁, l₂, hroutes, -, hreplace⟩ := split_of_find? (updateRoute r) hx
  rw [countsOf, hreplace, Exact, hcount, hroutes]
  cases hflag : r.isCapture <;> cases hold : x.isCapture <;> simp [hupdate, hflag, hold]

end

/-! ### Calls -/

/-- A call that changes the table. -/
inductive Call where
  | insert (n : Name) (r : Route)
  | erase (n : Name) (r : Route)

/-- A call, unless an assertion failed before. -/
def perform (s : Option Rib) : Call → Option Rib
  | .insert n r => s.bind fun rib => rib.insert n r
  | .erase n r => s.bind fun rib => rib.erase n r

/-- An insertion of a route that exists leaves its capture flag as it is. -/
def KeepsCapture (s : Option Rib) : Call → Prop
  | .insert n r => ∀ e ∈ s.bind fun rib => rib.find n,
      ∀ x ∈ e.findRoute r, x.isCapture = r.isCapture
  | .erase _ _ => True

/-- After an insertion the counters are right exactly if it keeps the flag. -/
theorem Counted.insert_iff (hc : Counted rib) (n : Name) (r : Route) :
    (∀ rib' ∈ rib.insert n r, Counted rib') ↔ KeepsCapture (some rib) (.insert n r) := by
  unfold Rib.insert KeepsCapture
  rcases he : rib.find n with _ | e
  · refine iff_of_true (fun rib' h => (hc.update_iff (counts_insertEntry h)).mpr ?_) (by simp [he])
    rintro d ⟨⟩
    simp [Exact, countP_cons]
  have hexact : Exact (countsOf e) := (counted_iff.mp hc n e he).counter
  have hmodify {g : RibEntry → RibEntry} {rib' : Rib}
      (h : rib'.entries = (rib.modifyEntry n g).entries) :
      Counted rib' ↔ Exact (countsOf (g e)) := by
    rw [hc.update_iff (counts_modifyEntry he h)]
    simp
  rcases hx : e.findRoute r with _ | x <;>
    simp only [hx, Option.mem_some_iff, forall_eq', Option.bind_some, he]
  · refine (hmodify (g := fun e => e.insertRoute r) rfl).trans ?_
    simpa using exact_insertRoute hexact hx
  · refine (hmodify (g := fun e => { e with
      routes := replaceFirst (fun x => x.compareFaceIdAndOrigin r) (updateRoute r) e.routes })
      rfl).trans ?_
    exact exact_updateRoute_iff hexact hx

/-- After an erasure the counters are right. -/
theorem Counted.erase (hc : Counted rib) (h : rib.erase n r = some rib') : Counted rib' := by
  unfold Rib.erase at h
  rcases he : rib.find n with _ | e
  · simp only [he] at h
    cases h
    exact hc
  rcases hx : e.findRoute r with _ | x <;> simp only [he, hx] at h
  · cases h
    exact hc
  have herased := exact_eraseRoute (counted_iff.mp hc n e he).counter hx
  obtain ⟨rib₁, hentries, h⟩ : ∃ rib₁ : Rib,
      rib₁.entries = (rib.modifyEntry n fun e => (e.eraseRoute r).1).entries ∧
      (if (e.eraseRoute r).1.routes.isEmpty then rib₁.eraseEntry n else some rib₁) = some rib' := by
    refine ⟨_, ?_, h⟩
    rfl
  have hc₁ : Counted rib₁ := (hc.update_iff (counts_modifyEntry he hentries)).mpr (by
    rintro d ⟨⟩
    exact herased)
  split_ifs at h
  · have he₁ : rib₁.entries n = some (e.eraseRoute r).1 := by
      simp [hentries, modifyEntry, show rib.entries n = some e from he]
    exact (hc₁.update_iff (counts_eraseEntry he₁ h)).mpr (by rintro d ⟨⟩)
  · cases h
    exact hc₁

/-- Along every sequence of calls, all counters are right in every state exactly if no insertion
changes the capture flag of a route that exists. -/
theorem countsCapture_iff_keepsCapture (calls : List Call) :
    (∀ past, past <+: calls → ∀ rib ∈ past.foldl perform (some create),
      ∀ n e, rib.entries n = some e → e.CountsCapture) ↔
      Runs.Along perform KeepsCapture (some create) calls := by
  simp only [← counted_iff]
  refine Runs.along_iff_prefixes (I := fun s => ∀ rib ∈ s, Counted rib) ?_ ?_
  · rintro rib ⟨⟩ n d hd
    cases hd
  · rintro s call hs
    cases call with
    | insert n r =>
      rcases s with _ | rib
      · simp [perform, KeepsCapture]
      · exact (hs rib rfl).insert_iff n r
    | erase n r =>
      refine ⟨fun _ => trivial, fun _ rib' hrib' => ?_⟩
      obtain ⟨rib, hrib, herase⟩ := Option.bind_eq_some_iff.mp hrib'
      exact (hs rib hrib).erase herase

open SmallRib

/-- A route is registered without the capture flag and then with it. -/
def flagSetLater : List Call :=
  [.insert a (route 1 0 0 10), .insert a (route 2 0 0 10), .insert a (route 1 0 2 10)]

/-- `hasCapture` does not see the flag, and the erasure of the route takes the counter below 0. -/
theorem capture_set_later_not_counted :
    ((flagSetLater.foldl perform (some create)).bind fun rib => rib.find a).map
        (fun e => (e.hasCapture, e.routes.any Route.isCapture)) = some (false, true) ∧
      ((perform (flagSetLater.foldl perform (some create)) (.erase a (route 1 0 0 0))).bind
        fun rib => rib.find a).map
          (fun e => (e.nRoutesWithCaptureSet, e.routes.any Route.isCapture)) =
            some (2 ^ 64 - 1, false) := by
  decide +kernel

end Rib

end IcnDemo
