import IcnDemo.Pit.Defs
import IcnDemo.Lib.Keyed

/-!
# FIB entries

An entry has a list of next hops, one for each face, in the order of their costs.  `std::sort` may
put next hops of the same cost in any order.
-/

namespace IcnDemo.Fib

open List

/-- `fib::NextHop`. -/
structure NextHop where
  face : FaceRef
  cost : ℕ
deriving DecidableEq, Repr

/-- Address of a FIB entry. -/
abbrev EntryId := ℕ

/-- `fib::Entry`. -/
structure Entry where
  namePrefix : Name
  nextHops : List NextHop
  nameTreeEntry : Option NameTree.EntryId
deriving DecidableEq, Repr

/-- `Entry::hasNextHops`. -/
def Entry.hasNextHops (F : Entry) : Bool :=
  !F.nextHops.isEmpty

/-- The costs do not decrease. -/
def ByCost (hops : List NextHop) : Prop :=
  hops.Pairwise fun a b => a.cost ≤ b.cost

instance (hops : List NextHop) : Decidable (ByCost hops) :=
  inferInstanceAs (Decidable (hops.Pairwise _))

/-- What `std::sort` with the comparison of costs can be. -/
structure CostSort where
  sort : List NextHop → List NextHop
  perm : ∀ hops, (sort hops).Perm hops
  byCost : ∀ hops, ByCost (sort hops)

/-- One of them. -/
def byInsertion : CostSort where
  sort := insertionSort fun a b => a.cost ≤ b.cost
  perm := perm_insertionSort _
  byCost := by
    have : Std.Total fun a b : NextHop => a.cost ≤ b.cost := ⟨fun a b => le_total a.cost b.cost⟩
    have : IsTrans NextHop fun a b => a.cost ≤ b.cost := ⟨fun _ _ _ => le_trans⟩
    exact pairwise_insertionSort _

/-- The first hop with a property is the cheapest one with it. -/
theorem cost_le_of_find? {hops : List NextHop} (hsorted : ByCost hops) {test : NextHop → Bool}
    {hop : NextHop} (h : hops.find? test = some hop) :
    ∀ other ∈ hops, test other = true → hop.cost ≤ other.cost := by
  induction hops with
  | nil => cases h
  | cons first rest ih =>
    obtain ⟨hfirst, hrest⟩ := pairwise_cons.mp hsorted
    intro other hother hok
    rcases htest : test first with _ | _
    · rw [find?_cons_of_neg (by simp [htest])] at h
      rcases mem_cons.mp hother with rfl | hother
      · rw [htest] at hok
        cases hok
      · exact ih hrest h other hother hok
    grind

/-! ### Changes -/

namespace NextHopList

/-- `Entry::addNextHop`: a next hop that is there gets the new cost. -/
def addNextHop (S : CostSort) (hops : List NextHop) (face : FaceRef) (cost : ℕ) : List NextHop :=
  match hops.findIdx? fun hop => hop.face == face with
  | none => S.sort (hops ++ [⟨face, cost⟩])
  | some k => S.sort (hops.modify k fun hop => { hop with cost := cost })

/-- `Entry::removeNextHop`. -/
def removeNextHop (hops : List NextHop) (face : FaceRef) : List NextHop :=
  hops.eraseP fun hop => hop.face == face

/-- What `fib::Entry` keeps of its next hops: one for each face, in the order of the costs. -/
structure Sorted (hops : List NextHop) : Prop where
  nodup : (hops.map NextHop.face).Nodup
  byCost : ByCost hops

variable {hops : List NextHop} {face : FaceRef}

/-- A next hop is added, or its cost is replaced. -/
theorem mem_addNextHop (S : CostSort) (hnodup : (hops.map NextHop.face).Nodup) (cost : ℕ)
    {hop : NextHop} :
    hop ∈ addNextHop S hops face cost ↔ hop = ⟨face, cost⟩ ∨ hop ∈ hops ∧ hop.face ≠ face := by
  unfold addNextHop
  rcases hk : hops.findIdx? (fun hop => hop.face == face) with _ | k
  · have hne : ∀ hop ∈ hops, hop.face ≠ face := by
      simpa using findIdx?_eq_none_iff.mp hk
    simp only [hk]
    rw [(S.perm _).mem_iff, mem_append, mem_singleton]
    grind
  · obtain ⟨old, hold⟩ := Keyed.exists_find?_of_findIdx? hk
    have hface : old.face = face := by simpa using find?_some hold
    simp only [hk]
    rw [(S.perm _).mem_iff, Keyed.mem_modify_findIdx? NextHop.face _ hnodup hold hk, hface]

/-- The next hops stay in order. -/
theorem Sorted.addNextHop (h : Sorted hops) (S : CostSort) (face : FaceRef) (cost : ℕ) :
    Sorted (addNextHop S hops face cost) := by
  unfold NextHopList.addNextHop
  rcases hk : hops.findIdx? (fun hop => hop.face == face) with _ | k
  · simp only [hk]
    refine ⟨?_, S.byCost _⟩
    rw [((S.perm _).map _).nodup_iff, map_append, map_singleton, nodup_append]
    grind [h.nodup]
  simp only [hk]
  have hfaces : (hops.modify k fun hop => { hop with cost := cost }).map NextHop.face =
      hops.map NextHop.face := Keyed.map_modify (by intro hop; rfl) hops k
  refine ⟨?_, S.byCost _⟩
  rw [((S.perm _).map _).nodup_iff, hfaces]
  exact h.nodup

/-- The next hop of one face is removed. -/
theorem mem_removeNextHop (hnodup : (hops.map NextHop.face).Nodup) {hop : NextHop} :
    hop ∈ removeNextHop hops face ↔ hop ∈ hops ∧ hop.face ≠ face :=
  Keyed.mem_eraseP NextHop.face hnodup

/-- The next hops stay in order without one. -/
theorem Sorted.removeNextHop (h : Sorted hops) (face : FaceRef) :
    Sorted (removeNextHop hops face) :=
  ⟨h.nodup.sublist (eraseP_sublist.map _), h.byCost.sublist eraseP_sublist⟩

/-- No next hops are in order. -/
theorem Sorted.nil : Sorted [] :=
  ⟨nodup_nil, Pairwise.nil⟩

/-! ### Costs by face -/

/-- The cost of each face. -/
def costs (hops : List NextHop) (face : FaceRef) : Option ℕ :=
  (hops.find? fun hop => hop.face == face).map NextHop.cost

/-- The map has the costs of the next hops. -/
theorem costs_eq_some_iff (hnodup : (hops.map NextHop.face).Nodup) {cost : ℕ} :
    costs hops face = some cost ↔ ⟨face, cost⟩ ∈ hops := by
  unfold costs
  rw [Option.map_eq_some_iff]
  constructor
  · rintro ⟨hop, hfind, rfl⟩
    obtain ⟨hmem, rfl⟩ := (Keyed.find?_eq_some_iff NextHop.face hnodup).mp hfind
    exact hmem
  · intro hmem
    exact ⟨_, (Keyed.find?_eq_some_iff NextHop.face hnodup).mpr ⟨hmem, rfl⟩, rfl⟩

/-- `addNextHop` on the map. -/
theorem costs_addNextHop (S : CostSort) (h : Sorted hops) (cost : ℕ) :
    costs (addNextHop S hops face cost) = Function.update (costs hops) face (some cost) := by
  funext other
  refine Option.ext fun c => ?_
  rw [costs_eq_some_iff (h.addNextHop S face cost).nodup, mem_addNextHop S h.nodup]
  grind [costs_eq_some_iff, h.nodup]

/-- `removeNextHop` on the map. -/
theorem costs_removeNextHop (h : Sorted hops) :
    costs (removeNextHop hops face) = Function.update (costs hops) face none := by
  funext other
  refine Option.ext fun c => ?_
  rw [costs_eq_some_iff (h.removeNextHop face).nodup, mem_removeNextHop h.nodup]
  grind [costs_eq_some_iff, h.nodup]

/-- The map is empty if there are no next hops. -/
theorem costs_eq_none_iff : (∀ face, costs hops face = none) ↔ hops = [] := by
  constructor
  · intro h
    rw [eq_nil_iff_forall_not_mem]
    simp_all [costs]
  · rintro rfl face
    rfl

end NextHopList

end IcnDemo.Fib
