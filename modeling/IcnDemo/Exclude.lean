import IcnDemo.Lib.DescendingMap
import IcnDemo.Lib.Runs
import IcnDemo.NameOrder

/-!
# Exclude filters

A filter is a map from components to flags in descending order; a term with the flag stands for
everything from its component up to the next term.  The operations add a component or a range of
components.

Two things go wrong.  A range that lies inside another one ends that one at its own end, since the
end is inserted as a term without the flag (`Splits`).  And `isExcluded` compares a component with
its lower bound by value only, so that a digest without the flag also excludes the generic component
with the same octets, unless a term stands between them (`Twin`).  A run without these two keeps
what every operation promises.
-/

namespace IcnDemo

open Component DescendingMap

namespace Component

/-- Comparing the other way round. -/
theorem compare_swap (c d : Component) : d.compare c = (c.compare d).swap :=
  Std.OrientedCmp.eq_swap

/-- The canonical order. -/
instance : LinearOrder Component where
  le c d := (c.compare d).isLE = true
  lt c d := c.compare d = .lt
  le_refl c := by
    rw [compare_eq_iff.mpr rfl]
    rfl
  le_trans _ _ _ h h' := Std.TransCmp.isLE_trans h h'
  lt_iff_le_not_ge c d := by
    rw [compare_swap c d]
    rcases c.compare d <;> decide
  le_antisymm c d h h' := by
    change (d.compare c).isLE = true at h'
    change (c.compare d).isLE = true at h
    rw [compare_swap c d] at h'
    rw [← compare_eq_iff]
    revert h h'
    rcases c.compare d <;> decide
  le_total c d := by
    rw [compare_swap c d]
    rcases c.compare d <;> decide
  toDecidableLE c d := inferInstanceAs (Decidable ((c.compare d).isLE = true))
  toDecidableLT c d := inferInstanceAs (Decidable (c.compare d = .lt))
  toDecidableEq := inferInstance

/-- Of two components with one value the smaller is the digest. -/
theorem eq_generic_of_lt {c d : Component} (hc : c.WellFormed) (hd : d.WellFormed) (hlt : c < d)
    (hvalue : c.value = d.value) : c.isImplicitSha256Digest = true ∧ d = generic c.value := by
  have hne : c.type ≠ d.type := fun htype => hlt.ne (by
    cases c
    cases d
    exact congrArg₂ mk htype hvalue)
  rcases hd with hd | hd
  · have htype : d.type = Tlv.nameComponent := by simpa [isGeneric] using hd
    rcases hc with hc | hc
    · grind [isGeneric]
    · refine ⟨hc, ?_⟩
      rw [hvalue, generic, ← htype]
  have htype : d.type = Tlv.implicitSha256DigestComponent := by
    simp only [isImplicitSha256Digest, Bool.and_eq_true, beq_iff_eq] at hd
    exact hd.1
  rcases hc with hc | hc
  · -- generic components come after digests
    have hctype : c.type = Tlv.nameComponent := by simpa [isGeneric] using hc
    have hgt : c.compare d = .gt := by
      rw [compare, hctype, htype]
      rfl
    rw [show c.compare d = .lt from hlt] at hgt
    cases hgt
  · grind [isImplicitSha256Digest]

/-- A digest is below all generic components. -/
theorem lt_generic {c : Component} (hc : c.isImplicitSha256Digest = true) (v : List UInt8) :
    c < generic v := by
  have htype : c.type = Tlv.implicitSha256DigestComponent := by
    simp only [isImplicitSha256Digest, Bool.and_eq_true, beq_iff_eq] at hc
    exact hc.1
  change c.compare (generic v) = .lt
  rw [compare, htype]
  rfl

/-- The empty component is the first generic one. -/
theorem generic_nil_le (v : List UInt8) : generic [] ≤ generic v := by
  rcases v with _ | ⟨b, v⟩
  · exact le_rfl
  have hlength : Ord.compare ([] : List UInt8).length (b :: v).length = .lt :=
    Nat.compare_eq_lt.mpr (Nat.succ_pos _)
  rfl

/-- Generic components can be constructed. -/
theorem wellFormed_generic (v : List UInt8) : (generic v).WellFormed :=
  .inl rfl

end Component

namespace Exclude

/-! ### Operations -/

/-- `Exclude::excludeOne`. -/
def excludeOne (comp : Component) (x : Exclude) : Exclude :=
  if x.isExcluded comp then x
  else ⟨insert comp false x.terms, Descending.insert x.descending comp false⟩

/-- The beginning of a range, in `excludeRange` and `excludeAfter`: the terms, and the term with the
flag that holds the start. -/
def openAt (start : Component) (terms : List (Component × Bool)) :
    List (Component × Bool) × Component :=
  match lowerBound terms start with
  | some (newFrom, true) => (terms, newFrom)
  | _ => (assign start true (insert start true terms), start)

/-- The terms stay in order when a range is opened. -/
theorem descending_openAt {terms : List (Component × Bool)} (h : Descending terms)
    (start : Component) : Descending (openAt start terms).1 := by
  unfold openAt
  split
  · exact h
  · exact (h.insert start true).assign start true

/-- The terms after `excludeRange`.  Terms are erased from the one behind the end, or from the lower
bound of the end, to the one that holds the start. -/
def rangeTerms (start stop : Component) (terms : List (Component × Bool)) :
    List (Component × Bool) :=
  let r := openAt start terms
  let newFrom := r.2
  match lowerBound r.1 stop with
  | .none => r.1
  | some (newTo, any) =>
    if newTo = newFrom || !any then
      (insert stop false r.1).filter fun p => !(decide (newFrom < p.1) && decide (p.1 < stop))
    else r.1.filter fun p => !(decide (newFrom < p.1) && decide (p.1 ≤ newTo))

/-- The terms stay in order when a range is excluded. -/
theorem descending_rangeTerms {terms : List (Component × Bool)} (h : Descending terms)
    (start stop : Component) : Descending (rangeTerms start stop terms) := by
  have hopen := descending_openAt h start
  unfold rangeTerms
  simp only
  split
  · exact hopen
  · split
    · exact (hopen.insert stop false).filter _
    · exact hopen.filter _

/-- `Exclude::excludeRange`, `none` when it throws. -/
def excludeRange (start stop : Component) (x : Exclude) : Option Exclude :=
  if stop ≤ start then .none
  else some ⟨rangeTerms start stop x.terms, descending_rangeTerms x.descending start stop⟩

/-- `Exclude::excludeBefore`. -/
def excludeBefore (stop : Component) (x : Exclude) : Option Exclude :=
  x.excludeRange (.generic []) stop

/-- `Exclude::excludeAfter`. -/
def excludeAfter (start : Component) (x : Exclude) : Exclude :=
  ⟨(openAt start x.terms).1.filter fun p => !decide ((openAt start x.terms).2 < p.1),
    (descending_openAt x.descending start).filter _⟩

/-- The operations of a filter. -/
inductive Op where
  | excludeOne (comp : Component)
  | excludeRange (start stop : Component)
  | excludeBefore (stop : Component)
  | excludeAfter (start : Component)
deriving DecidableEq, Repr

/-- The filter after an operation; one that throws changes nothing. -/
def apply (x : Exclude) : Op → Exclude
  | .excludeOne comp => x.excludeOne comp
  | .excludeRange start stop => (x.excludeRange start stop).getD x
  | .excludeBefore stop => (x.excludeBefore stop).getD x
  | .excludeAfter start => x.excludeAfter start

/-- The arguments are components, and a range is not empty. -/
def Op.WellFormed : Op → Prop
  | .excludeOne comp => comp.WellFormed
  | .excludeRange start stop => start.WellFormed ∧ stop.WellFormed ∧ start < stop
  | .excludeBefore stop => stop.WellFormed
  | .excludeAfter start => start.WellFormed

instance : (op : Op) → Decidable op.WellFormed
  | .excludeOne comp => inferInstanceAs (Decidable comp.WellFormed)
  | .excludeRange start stop =>
    inferInstanceAs (Decidable (start.WellFormed ∧ stop.WellFormed ∧ start < stop))
  | .excludeBefore stop => inferInstanceAs (Decidable stop.WellFormed)
  | .excludeAfter start => inferInstanceAs (Decidable start.WellFormed)

/-- The components that an operation names. -/
def Op.Names (c : Component) : Op → Prop
  | .excludeOne comp => c = comp
  | .excludeRange start stop => start ≤ c ∧ c ≤ stop
  | .excludeBefore stop => .generic [] ≤ c ∧ c ≤ stop
  | .excludeAfter start => start ≤ c

/-- After the operation the components that it names are excluded, besides those that were. -/
def Adds (x : Exclude) (op : Op) : Prop :=
  ∀ c : Component, c.WellFormed →
    ((x.apply op).isExcluded c = true ↔ x.isExcluded c = true ∨ op.Names c)

/-! ### What an operation must not meet -/

/-- No term stands behind `c`, up to `d`. -/
def NoneBetween (x : Exclude) (c d : Component) : Prop :=
  ∀ q ∈ x.terms, c < q.1 → ¬ q.1 ≤ d

instance (x : Exclude) (c d : Component) : Decidable (x.NoneBetween c d) :=
  inferInstanceAs (Decidable (∀ q ∈ x.terms, _))

/-- The range lies inside a range of the filter, which goes on behind it. -/
def Splits (x : Exclude) (start stop : Component) : Prop :=
  (∃ newFrom, lowerBound x.terms start = some (newFrom, true) ∧
    lowerBound x.terms stop = some (newFrom, true)) ∧
    ∃ c : Component, c.WellFormed ∧ stop < c ∧ x.NoneBetween stop c

/-- The component is a digest; the generic component with its octets is not excluded, and no term
stands between the two. -/
def Twin (x : Exclude) (comp : Component) : Prop :=
  comp.isImplicitSha256Digest = true ∧ x.isExcluded (.generic comp.value) = false ∧
    x.NoneBetween comp (.generic comp.value)

instance (x : Exclude) (comp : Component) : Decidable (x.Twin comp) :=
  inferInstanceAs (Decidable (_ ∧ _ ∧ _))

/-- The operation does not split a range and does not leave the digest of a twin.  An
`excludeBefore` of the empty component throws. -/
def Safe (x : Exclude) : Op → Prop
  | .excludeOne comp => ¬ x.Twin comp
  | .excludeRange start stop => ¬ x.Splits start stop ∧ ¬ x.Twin stop
  | .excludeBefore stop =>
    (stop = .generic [] → x.isExcluded stop = true) ∧
      (.generic [] < stop → ¬ x.Splits (.generic []) stop)
  | .excludeAfter _ => True

/-! ### Lower bounds -/

variable {x : Exclude} {c d : Component}

/-- The term is marked, or it has the octets of the component. -/
def Hits (p : Component × Bool) (c : Component) : Prop :=
  p.2 = true ∨ p.1.value = c.value

/-- The lower bound decides whether a component is excluded. -/
theorem isExcluded_iff : x.isExcluded c = true ↔ ∃ p, lowerBound x.terms c = some p ∧ Hits p c := by
  have hfind : (x.terms.find? fun p => p.1.compare c != .gt) = lowerBound x.terms c := by
    congr 1
    funext p
    change (p.1.compare c != .gt) = decide ((p.1.compare c).isLE = true)
    rcases p.1.compare c <;> rfl
  unfold isExcluded Hits
  rw [hfind]
  rcases lowerBound x.terms c with _ | ⟨k, any⟩
  · simp
  · rcases any <;> simp

/-- The filters agree where the lower bounds do. -/
theorem isExcluded_of_lowerBound {y : Exclude} (h : lowerBound y.terms c = lowerBound x.terms c) :
    y.isExcluded c = true ↔ x.isExcluded c = true := by
  rw [isExcluded_iff, isExcluded_iff, h]

/-- A given lower bound decides. -/
theorem isExcluded_of_some {p : Component × Bool} (h : lowerBound x.terms c = some p) :
    x.isExcluded c = true ↔ Hits p c := by
  rw [isExcluded_iff, h]
  simp

/-- No component is excluded because of the octets of another one. -/
def Typed (x : Exclude) : Prop :=
  ∀ (c : Component) (p : Component × Bool), c.WellFormed → lowerBound x.terms c = some p →
    p.2 = false → p.1.value = c.value → p.1 = c

/-- The empty filter is typed. -/
theorem typed_none : Typed Exclude.none := by
  intro c p _ h
  simp [Exclude.none, lowerBound] at h

/-- Behind an unmarked term nothing is excluded up to the next term. -/
theorem not_isExcluded_of_noneBetween (hx : x.Typed) (hc : c.WellFormed) (hlt : d < c)
    (hnone : x.NoneBetween d c) (hunmarked : ∀ p, lowerBound x.terms d = some p → p.2 = false) :
    x.isExcluded c = false := by
  rw [Bool.eq_false_iff]
  intro hexcluded
  obtain ⟨p, hp, hhits⟩ := isExcluded_iff.mp hexcluded
  have hd : lowerBound x.terms d = some p := by
    rw [← lowerBound_eq_of_none_between x.descending hlt.le hnone]
    exact hp
  have hflag := hunmarked p hd
  rcases hhits with hmarked | hvalue
  · rw [hflag] at hmarked
    cases hmarked
  · have heq := hx c p hc hp hflag hvalue
    have hle := ((lowerBound_eq_some_iff x.descending).mp hd).2.1
    order

/-- A component that is excluded behind an unmarked term has its value. -/
theorem twin_of_value_eq (hx : x.Typed) (hc : c.WellFormed) (hd : d.WellFormed) (hlt : d < c)
    (hnone : x.NoneBetween d c) (hunmarked : ∀ p, lowerBound x.terms d = some p → p.2 = false)
    (hvalue : d.value = c.value) : x.Twin d := by
  obtain ⟨hdigest, hgeneric⟩ := eq_generic_of_lt hd hc hlt hvalue
  have hnot := not_isExcluded_of_noneBetween hx hc hlt hnone hunmarked
  rw [hgeneric] at hnone hnot
  exact ⟨hdigest, hnot, hnone⟩

/-! ### A range that was added -/

/-- A range of the filter holds this component and goes on behind it. -/
def GoesOn (x : Exclude) (stop : Component) : Prop :=
  (∃ p, lowerBound x.terms stop = some p ∧ p.2 = true) ∧
    ∃ c : Component, c.WellFormed ∧ stop < c ∧ x.NoneBetween stop c

/-- The lower bounds of `y` are those of `x`, except that a range begins at `newFrom`.  Behind its
end it is either `closed` by a term without the flag, or it goes on as a range of `x` did. -/
structure Extends (x y : Exclude) (newFrom start stop : Component) (closed : Bool) : Prop where
  newFrom_le : newFrom ≤ start
  start_le : start ≤ stop
  below : ∀ c < newFrom, lowerBound y.terms c = lowerBound x.terms c
  before : ∀ c, newFrom ≤ c → c < start → lowerBound x.terms c = some (newFrom, true)
  within : ∀ c, newFrom ≤ c → c < stop → lowerBound y.terms c = some (newFrom, true)
  above : ∀ c, stop ≤ c → ¬ x.NoneBetween stop c → lowerBound y.terms c = lowerBound x.terms c
  behind : ∀ c, stop ≤ c → x.NoneBetween stop c →
    lowerBound y.terms c = some (if closed then (stop, false) else (newFrom, true))
  goesOn : closed = false → ∃ p, lowerBound x.terms stop = some p ∧ p.2 = true

section

variable {y : Exclude} {newFrom start stop : Component} {closed : Bool}

/-- Without a term between, two components have the same lower bound. -/
theorem lowerBound_of_noneBetween (hle : stop ≤ c) (hnone : x.NoneBetween stop c) :
    lowerBound x.terms c = lowerBound x.terms stop :=
  lowerBound_eq_of_none_between x.descending hle hnone

/-- Where a range goes on, a component with other octets than those of its end is behind it. -/
theorem exists_value_ne (hstop : stop.WellFormed) (hc : c.WellFormed) (hlt : stop < c)
    (hnone : x.NoneBetween stop c) :
    ∃ d : Component, d.WellFormed ∧ stop < d ∧ x.NoneBetween stop d ∧ stop.value ≠ d.value := by
  by_cases hvalue : stop.value = c.value
  · obtain ⟨hdigest, rfl⟩ := eq_generic_of_lt hstop hc hlt hvalue
    refine ⟨.generic [], .inl rfl, lt_generic hdigest [], ?_, ?_⟩
    · intro q hq hstopq hle
      exact hnone q hq hstopq (hle.trans (generic_nil_le _))
    · intro hnil
      simp [isImplicitSha256Digest, show stop.value = [] from hnil] at hdigest
  · exact ⟨c, hc, hlt, hnone, hvalue⟩

/-- If exactly a range is added, the last component has no twin. -/
theorem Extends.not_twin (h : Extends x y newFrom start stop closed)
    (hadds : ∀ c : Component, c.WellFormed →
      (y.isExcluded c = true ↔ x.isExcluded c = true ∨ start ≤ c ∧ c ≤ stop)) : ¬ x.Twin stop := by
  rintro ⟨hdigest, hnot, hnone⟩
  have hlt := lt_generic hdigest stop.value
  have hlower := lowerBound_of_noneBetween hlt.le hnone
  have hbehind := h.behind _ hlt.le hnone
  rcases closed with _ | _
  · obtain ⟨p, hp, hmarked⟩ := h.goesOn rfl
    rw [← hlower] at hp
    rw [(isExcluded_of_some hp).mpr (.inl hmarked)] at hnot
    cases hnot
  · have hexcluded : y.isExcluded (.generic stop.value) = true :=
      (isExcluded_of_some hbehind).mpr (.inr rfl)
    grind [wellFormed_generic]

/-- If exactly a range is added, the old range does not go on behind it. -/
theorem Extends.not_goesOn (h : Extends x y newFrom start stop true) (hstop : stop.WellFormed)
    (hadds : ∀ c : Component, c.WellFormed →
      (y.isExcluded c = true ↔ x.isExcluded c = true ∨ start ≤ c ∧ c ≤ stop)) :
        ¬ x.GoesOn stop := by
  rintro ⟨⟨p, hp, hmarked⟩, c, hc, hlt, hnone⟩
  obtain ⟨d, hd, hlt, hnone, hvalue⟩ := exists_value_ne hstop hc hlt hnone
  have hlower := lowerBound_of_noneBetween hlt.le hnone
  rw [← hlower] at hp
  have hexcluded := (hadds d hd).mpr (.inl ((isExcluded_of_some hp).mpr (.inl hmarked)))
  rcases (isExcluded_of_some (h.behind d hlt.le hnone)).mp hexcluded with hflag | heq
  · cases hflag
  · exact hvalue heq

variable (h : Extends x y newFrom start stop closed) (hx : x.Typed) (hstop : stop.WellFormed)

include h hx hstop

variable (hgoes : closed = true → ¬ x.GoesOn stop) (htwin : ¬ x.Twin stop)

include hgoes htwin

/-- Behind the new range nothing changes. -/
theorem Extends.isExcluded_behind
    (hc : c.WellFormed) (hlt : stop < c) (hnone : x.NoneBetween stop c) :
    (y.isExcluded c = true ↔ x.isExcluded c = true) ∧
      ∀ p, lowerBound y.terms c = some p → p.2 = false → p.1.value ≠ c.value := by
  have hbehind := h.behind c hlt.le hnone
  have hlower := lowerBound_of_noneBetween hlt.le hnone
  rcases closed with _ | _
  · obtain ⟨p, hp, hmarked⟩ := h.goesOn rfl
    rw [← hlower] at hp
    refine ⟨iff_of_true ((isExcluded_of_some hbehind).mpr (.inl rfl))
      ((isExcluded_of_some hp).mpr (.inl hmarked)), ?_⟩
    simp_all
  have hunmarked : ∀ p, lowerBound x.terms stop = some p → p.2 = false := by
    intro p hp
    by_contra hmarked
    exact hgoes rfl ⟨⟨p, hp, by simpa using hmarked⟩, c, hc, hlt, hnone⟩
  have hvalue : stop.value ≠ c.value := fun hvalue =>
    htwin (twin_of_value_eq hx hc hstop hlt hnone hunmarked hvalue)
  have hnot := not_isExcluded_of_noneBetween hx hc hlt hnone hunmarked
  refine ⟨?_, ?_⟩
  · rw [isExcluded_of_some hbehind, hnot]
    simpa [Hits] using hvalue
  · simp_all

/-- Exactly the range is added. -/
theorem Extends.adds
    (hc : c.WellFormed) : y.isExcluded c = true ↔ x.isExcluded c = true ∨ start ≤ c ∧ c ≤ stop := by
  have hfrom := h.newFrom_le
  have hrange := h.start_le
  rcases lt_or_ge c newFrom with hbelow | hfromc
  · grind [isExcluded_of_lowerBound, h.below]
  rcases lt_or_ge c stop with hwithin | hstopc
  · refine iff_of_true ((isExcluded_of_some (h.within c hfromc hwithin)).mpr (.inl rfl)) ?_
    rcases lt_or_ge c start with hbefore | hin
    · exact .inl ((isExcluded_of_some (h.before c hfromc hbefore)).mpr (.inl rfl))
    · exact .inr ⟨hin, hwithin.le⟩
  by_cases hnone : x.NoneBetween stop c
  · rcases hstopc.eq_or_lt with rfl | hlt
    · refine iff_of_true ?_ (.inr ⟨hrange, le_rfl⟩)
      rw [isExcluded_of_some (h.behind _ le_rfl hnone)]
      rcases closed with _ | _
      · exact .inl rfl
      · exact .inr rfl
    · grind [h.isExcluded_behind]
  · have hne : c ≠ stop := by
      rintro rfl
      exact hnone fun q _ hlt hle => absurd hlt (not_lt.mpr hle)
    grind [isExcluded_of_lowerBound, h.above]

/-- The new filter is typed. -/
theorem Extends.typed : y.Typed := by
  intro c p hc hp hflag hvalue
  rcases lt_or_ge c newFrom with hbelow | hfromc
  · rw [h.below c hbelow] at hp
    exact hx c p hc hp hflag hvalue
  rcases lt_or_ge c stop with hwithin | hstopc
  · rw [h.within c hfromc hwithin] at hp
    cases hp
    cases hflag
  by_cases hnone : x.NoneBetween stop c
  · rcases hstopc.eq_or_lt with rfl | hlt
    · grind [h.behind]
    · exact absurd hvalue ((h.isExcluded_behind hx hstop hgoes htwin hc hlt hnone).2 p hp hflag)
  · rw [h.above c hstopc hnone] at hp
    exact hx c p hc hp hflag hvalue

end

/-! ### One component -/

/-- A single component is a range. -/
theorem extends_excludeOne (hnew : x.isExcluded d = false) :
    Extends x (x.excludeOne d) d d d true := by
  have hterms : (x.excludeOne d).terms = insert d false x.terms := by
    unfold excludeOne
    rw [if_neg (by simp [hnew])]
  have hy := (x.excludeOne d).descending
  -- the component is not a term
  have habsent : ∀ q ∈ x.terms, q.1 ≠ d := by
    rintro q hq rfl
    have hlower : lowerBound x.terms q.1 = some q :=
      (lowerBound_eq_some_iff x.descending).mpr ⟨hq, le_rfl, fun r _ hr => hr⟩
    rw [(isExcluded_of_some hlower).mpr (.inr rfl)] at hnew
    cases hnew
  have hmem : ∀ q : Component × Bool,
      q ∈ (x.excludeOne d).terms ↔ q ∈ x.terms ∨ q = (d, false) := by
    intro q
    rw [hterms, mem_insert x.descending, and_iff_left habsent]
  refine ⟨le_rfl, le_rfl, ?_, ?_, ?_, ?_, ?_, fun h => absurd h (by decide)⟩
  · intro c hlt
    refine lowerBound_congr hy x.descending fun q hq => ?_
    grind
  · intro c hle hlt
    exact absurd hlt (not_lt.mpr hle)
  · intro c hle hlt
    exact absurd hlt (not_lt.mpr hle)
  · intro c _ hsome
    refine lowerBound_congr_above hy x.descending (d := d) ?_ ?_ <;> grind [NoneBetween]
  · intro c hle hnone
    refine (lowerBound_eq_some_iff hy).mpr ⟨(hmem _).mpr (.inr rfl), hle, ?_⟩
    intro q hq hqc
    rcases (hmem q).mp hq with hq | rfl
    · exact not_lt.mp fun hlt => hnone q hq hlt hqc
    · exact le_rfl

/-! ### Ranges -/

/-- The terms `m` in which a range has been opened at `newFrom`: an old one, or one that starts
where the new range does. -/
structure Opened (x : Exclude) (start : Component) (m : List (Component × Bool))
    (newFrom : Component) : Prop where
  descending : Descending m
  newFrom_le : newFrom ≤ start
  mem : (newFrom, true) ∈ m
  mem_iff : ∀ q : Component × Bool, q.1 ≠ newFrom → (q ∈ m ↔ q ∈ x.terms)
  greatest : ∀ q ∈ m, q.1 ≤ start → q.1 ≤ newFrom
  cases : (lowerBound x.terms start = some (newFrom, true) ∧ m = x.terms) ∨
    (newFrom = start ∧ ∀ p, lowerBound x.terms start = some p → p.2 = false)

/-- What opening a range does. -/
theorem openAt_opened (x : Exclude) (start : Component) :
    Opened x start (openAt start x.terms).1 (openAt start x.terms).2 := by
  have hdescending := descending_openAt x.descending start
  by_cases hmarked : ∃ k, lowerBound x.terms start = some (k, true)
  · obtain ⟨k, hlower⟩ := hmarked
    have hopen : openAt start x.terms = (x.terms, k) := by simp [openAt, hlower]
    rw [hopen]
    obtain ⟨hmem, hle, hgreatest⟩ := (lowerBound_eq_some_iff x.descending).mp hlower
    exact ⟨x.descending, hle, hmem, fun _ _ => Iff.rfl, hgreatest, .inl ⟨hlower, rfl⟩⟩
  have hopen : openAt start x.terms = (assign start true (insert start true x.terms), start) := by
    grind [openAt]
  rw [hopen] at hdescending ⊢
  refine ⟨hdescending, le_rfl, (mem_assign_insert x.descending).mpr (.inl rfl), ?_,
    fun q _ hq => hq, .inr ⟨rfl, ?_⟩⟩
  · intro q hq
    rw [mem_assign_insert x.descending, and_iff_left hq, or_iff_right]
    rintro rfl
    exact hq rfl
  · rintro ⟨k, any⟩ hlower
    simp_all

section

variable {start stop newFrom : Component} {m : List (Component × Bool)}

/-- The range of the filter into which the new one was opened holds what comes before the start. -/
theorem Opened.before (h : Opened x start m newFrom) (hfrom : newFrom ≤ c) (hlt : c < start) :
    lowerBound x.terms c = some (newFrom, true) := by
  rcases h.cases with ⟨hlower, -⟩ | ⟨heq, -⟩
  · obtain ⟨hmem, -, hgreatest⟩ := (lowerBound_eq_some_iff x.descending).mp hlower
    exact (lowerBound_eq_some_iff x.descending).mpr
      ⟨hmem, hfrom, fun q hq hqc => hgreatest q hq (hqc.trans hlt.le)⟩
  · order

variable {newTo : Component}

/-- The lower bound of the last component is an old one, unless it is the first. -/
theorem Opened.lowerBound_eq {any : Bool} (h : Opened x start m newFrom)
    (hle : newFrom ≤ stop) (hlower : lowerBound m stop = some (newTo, any))
    (hne : newTo ≠ newFrom) : lowerBound x.terms stop = some (newTo, any) := by
  obtain ⟨hmem, hto, hgreatest⟩ := (lowerBound_eq_some_iff h.descending).mp hlower
  refine (lowerBound_eq_some_iff x.descending).mpr ⟨(h.mem_iff _ hne).mp hmem, hto, ?_⟩
  intro q hq hqc
  grind [h.mem, h.mem_iff]

variable (h : Opened x start m newFrom) (hlt : start < stop)

include h hlt

/-- The opened range is cut short inside a range of the filter only if that is the one into which it
was opened. -/
theorem Opened.splits {any : Bool} (hlower : lowerBound m stop = some (newTo, any))
    (hclosed : newTo = newFrom ∨ any = false) (hgoes : x.GoesOn stop) : x.Splits start stop := by
  obtain ⟨⟨p, hp, hmarked⟩, hbehind⟩ := hgoes
  have hle : newFrom ≤ stop := h.newFrom_le.trans hlt.le
  refine ⟨⟨newFrom, ?_⟩, hbehind⟩
  by_cases hne : newTo = newFrom
  · rcases h.cases with ⟨hstart, hsame⟩ | ⟨heq, hunmarked⟩
    · simp_all
    -- the lower bound of the end would be that of the start, which has no flag
    obtain ⟨-, -, hgreatest⟩ := (lowerBound_eq_some_iff h.descending).mp hlower
    obtain ⟨hmem, hpstop, hpgreatest⟩ := (lowerBound_eq_some_iff x.descending).mp hp
    have hpstart : p.1 ≤ start := by
      grind [h.mem_iff]
    have hstart : lowerBound x.terms start = some p := (lowerBound_eq_some_iff x.descending).mpr
      ⟨hmem, hpstart, fun q hq hqs => hpgreatest q hq (hqs.trans hlt.le)⟩
    rw [hunmarked p hstart] at hmarked
    cases hmarked
  · grind [h.lowerBound_eq]

/-- What the entries of the new filter are, in the order of their keys, decides its lower bounds. -/
theorem Opened.extends {y : Exclude} {closed : Bool}
    (hbelow : ∀ q : Component × Bool, q.1 < newFrom → (q ∈ y.terms ↔ q ∈ x.terms))
    (hfrom : (newFrom, true) ∈ y.terms) (hbetween : ∀ q ∈ y.terms, newFrom < q.1 → stop ≤ q.1)
    (habove : ∀ q : Component × Bool, stop < q.1 → (q ∈ y.terms ↔ q ∈ x.terms))
    (hclosed : closed = true → (stop, false) ∈ y.terms)
    (hopen : closed = false → (∀ q ∈ y.terms, newFrom < q.1 → stop < q.1) ∧
      ∃ p, lowerBound x.terms stop = some p ∧ p.2 = true) :
    Extends x y newFrom start stop closed := by
  have hle := h.newFrom_le
  refine ⟨hle, hlt.le, ?_, fun c => h.before, ?_, ?_, ?_, fun hc => (hopen hc).2⟩
  · intro c hc
    exact lowerBound_congr y.descending x.descending fun q hq => hbelow q (hq.trans_lt hc)
  · intro c hfromc hstop
    refine (lowerBound_eq_some_iff y.descending).mpr ⟨hfrom, hfromc, ?_⟩
    grind
  · intro c _ hsome
    refine lowerBound_congr_above y.descending x.descending habove ?_
    unfold NoneBetween at hsome
    push Not at hsome
    exact hsome
  · intro c hstop hnone
    have hupto : ∀ q ∈ y.terms, q.1 ≤ c → q.1 ≤ stop := by
      intro q hq hqc
      by_contra hqstop
      have hlt := not_le.mp hqstop
      exact hnone q ((habove q hlt).mp hq) hlt hqc
    rcases closed with _ | _
    · refine (lowerBound_eq_some_iff y.descending).mpr ⟨hfrom, ?_, ?_⟩
      all_goals grind
    · exact (lowerBound_eq_some_iff y.descending).mpr ⟨hclosed rfl, hstop, hupto⟩

/-- A range with a term at its end. -/
theorem Opened.extends_closed {y : Exclude}
    (hstop : (stop, true) ∉ m)
    (hterms : y.terms = (insert stop false m).filter fun p =>
      !(decide (newFrom < p.1) && decide (p.1 < stop))) :
    Extends x y newFrom start stop true := by
  have hfromstop : newFrom < stop := h.newFrom_le.trans_lt hlt
  have hmem : ∀ q : Component × Bool, q ∈ y.terms ↔
      (q ∈ m ∨ q = (stop, false) ∧ ∀ r ∈ m, r.1 ≠ stop) ∧ ¬ (newFrom < q.1 ∧ q.1 < stop) := by
    grind [mem_insert, h.descending]
  refine h.extends hlt ?_ ?_ ?_ ?_ ?_ (fun hc => absurd hc (by decide))
  · grind [h.mem_iff]
  · exact (hmem _).mpr ⟨.inl h.mem, fun hno => absurd hno.1 (lt_irrefl _)⟩
  · grind
  · grind [h.mem_iff]
  · intro _
    refine (hmem _).mpr ⟨?_, fun hno => absurd hno.2 (lt_irrefl _)⟩
    by_cases hthere : ∃ r ∈ m, r.1 = stop
    · obtain ⟨⟨k, any⟩, hr, rfl⟩ := hthere
      rcases any with _ | _
      · exact .inl hr
      · exact absurd hr hstop
    · exact .inr ⟨rfl, fun r hr hkey => hthere ⟨r, hr, hkey⟩⟩

/-- A range that ends inside an old one. -/
theorem Opened.extends_open {y : Exclude}
    (hlower : lowerBound m stop = some (newTo, true)) (hne : newTo ≠ newFrom)
    (hterms : y.terms = m.filter fun p => !(decide (newFrom < p.1) && decide (p.1 ≤ newTo))) :
    Extends x y newFrom start stop false := by
  have hfromstop : newFrom < stop := h.newFrom_le.trans_lt hlt
  obtain ⟨-, hto, hgreatest⟩ := (lowerBound_eq_some_iff h.descending).mp hlower
  have hmem : ∀ q : Component × Bool, q ∈ y.terms ↔
      q ∈ m ∧ ¬ (newFrom < q.1 ∧ q.1 ≤ newTo) := by grind
  have hbehind : ∀ q ∈ y.terms, newFrom < q.1 → stop < q.1 := by grind
  refine h.extends hlt ?_ ?_ (fun q hq hfrom => (hbehind q hq hfrom).le) ?_
    (fun hc => absurd hc (by decide))
    (fun _ => ⟨hbehind, _, h.lowerBound_eq hfromstop.le hlower hne, rfl⟩)
  · grind [h.mem_iff]
  · exact (hmem _).mpr ⟨h.mem, fun hno => absurd hno.1 (lt_irrefl _)⟩
  · grind [h.mem_iff]

end

/-- `excludeRange` adds a range, and ends an old one too early where it splits it. -/
theorem extends_excludeRange {start stop : Component} (hlt : start < stop) :
    ∃ y newFrom closed, x.excludeRange start stop = some y ∧ Extends x y newFrom start stop closed ∧
      ((closed = true ∧ x.GoesOn stop) ↔ x.Splits start stop) := by
  have hopened := openAt_opened x start
  set m := (openAt start x.terms).1 with hm
  set newFrom := (openAt start x.terms).2 with hnewFrom
  have hfromstop : newFrom < stop := hopened.newFrom_le.trans_lt hlt
  have hrange : x.excludeRange start stop
      = some ⟨rangeTerms start stop x.terms, descending_rangeTerms x.descending start stop⟩ :=
    if_neg (not_le.mpr hlt)
  rcases hlower : lowerBound m stop with _ | ⟨newTo, any⟩
  · exact absurd (lowerBound_eq_none_iff.mp hlower _ hopened.mem) (not_lt.mpr hfromstop.le)
  have hterms : rangeTerms start stop x.terms = if (decide (newTo = newFrom) || !any) = true then
        (insert stop false m).filter fun p => !(decide (newFrom < p.1) && decide (p.1 < stop))
      else m.filter fun p => !(decide (newFrom < p.1) && decide (p.1 ≤ newTo)) := by
    simp only [rangeTerms, ← hm, ← hnewFrom, hlower]
  -- a split goes on in the range into which the new one was opened
  have hsplits : x.Splits start stop → newTo = newFrom ∧ any = true := by
    rintro ⟨⟨k, hstart, hstop⟩, -⟩
    grind [openAt]
  by_cases hclosed : newTo = newFrom ∨ any = false
  · rw [if_pos (by simpa using hclosed)] at hterms
    have hstop : (stop, true) ∉ m := by
      intro hmem
      have hself : lowerBound m stop = some (stop, true) :=
        (lowerBound_eq_some_iff hopened.descending).mpr ⟨hmem, le_rfl, fun q _ hq => hq⟩
      simp_all
    refine ⟨_, newFrom, true, hrange, hopened.extends_closed hlt hstop hterms, ?_⟩
    constructor
    · rintro ⟨-, hgoes⟩
      exact hopened.splits hlt hlower hclosed hgoes
    · intro hsplit
      obtain ⟨⟨k, -, hk⟩, hbehind⟩ := hsplit
      exact ⟨rfl, ⟨_, hk, rfl⟩, hbehind⟩
  · rw [if_neg (by simpa using hclosed)] at hterms
    obtain ⟨hne, hany⟩ := not_or.mp hclosed
    have hany : any = true := by simpa using hany
    rw [hany] at hlower
    refine ⟨_, newFrom, false, hrange, hopened.extends_open hlt hlower hne hterms, ?_⟩
    simp_all

/-! ### Open ranges -/

/-- The lower bounds after `excludeAfter`. -/
theorem lowerBound_excludeAfter (x : Exclude) (start c : Component) :
    lowerBound (x.excludeAfter start).terms c =
      if c < (openAt start x.terms).2 then lowerBound x.terms c
      else some ((openAt start x.terms).2, true) := by
  have hopened := openAt_opened x start
  have hy := (x.excludeAfter start).descending
  have hmem : ∀ q : Component × Bool, q ∈ (x.excludeAfter start).terms ↔
      q ∈ (openAt start x.terms).1 ∧ q.1 ≤ (openAt start x.terms).2 := by
    intro q
    rw [excludeAfter, List.mem_filter]
    simp
  split
  · refine lowerBound_congr hy x.descending fun q hq => ?_
    grind [hopened.mem_iff]
  · rename_i hge
    exact (lowerBound_eq_some_iff hy).mpr
      ⟨(hmem _).mpr ⟨hopened.mem, le_rfl⟩, not_lt.mp hge, fun q hq _ => ((hmem q).mp hq).2⟩

/-- `excludeAfter` adds what is not below its argument. -/
theorem isExcluded_excludeAfter (x : Exclude) (start c : Component) :
    (x.excludeAfter start).isExcluded c = true ↔ x.isExcluded c = true ∨ start ≤ c := by
  have hopened := openAt_opened x start
  have hlower := lowerBound_excludeAfter x start c
  have hle := hopened.newFrom_le
  by_cases hlt : c < (openAt start x.terms).2
  · rw [if_pos hlt] at hlower
    rw [isExcluded_of_lowerBound hlower, or_iff_left (by order)]
  rw [if_neg hlt] at hlower
  refine iff_of_true ((isExcluded_of_some hlower).mpr (.inl rfl)) ?_
  rcases lt_or_ge c start with hbefore | hstart
  · exact .inl ((isExcluded_of_some (hopened.before (not_lt.mp hlt) hbefore)).mpr (.inl rfl))
  · exact .inr hstart

/-- `excludeAfter` keeps a filter typed. -/
theorem typed_excludeAfter (hx : x.Typed) (start : Component) : (x.excludeAfter start).Typed := by
  intro c p hc hp hflag hvalue
  rw [lowerBound_excludeAfter] at hp
  split at hp
  · exact hx c p hc hp hflag hvalue
  · cases hp
    cases hflag

/-! ### Runs -/

/-- An excluded component has no twin. -/
theorem not_twin_of_isExcluded (h : x.isExcluded d = true) : ¬ x.Twin d := by
  rintro ⟨hdigest, hnot, hnone⟩
  have hlower := lowerBound_of_noneBetween (lt_generic hdigest d.value).le hnone
  obtain ⟨p, hp, hhits⟩ := isExcluded_iff.mp h
  rw [← hlower] at hp
  rw [(isExcluded_of_some hp).mpr hhits] at hnot
  cases hnot

/-- `excludeOne` adds exactly its argument if and only if it is safe. -/
theorem adds_excludeOne_iff (hx : x.Typed) (hd : d.WellFormed) :
    (x.Adds (.excludeOne d) ↔ x.Safe (.excludeOne d)) ∧
      (x.Safe (.excludeOne d) → (x.apply (.excludeOne d)).Typed) := by
  by_cases hexcluded : x.isExcluded d = true
  · have hsame : x.apply (.excludeOne d) = x := if_pos hexcluded
    refine ⟨iff_of_true ?_ (not_twin_of_isExcluded hexcluded), fun _ => by rwa [hsame]⟩
    intro c _
    rw [hsame, or_iff_left_of_imp]
    rintro rfl
    exact hexcluded
  have hnew : x.isExcluded d = false := by simpa using hexcluded
  have hext := extends_excludeOne hnew
  -- the lower bound of the component has no flag, so no range goes on behind it
  have hgoes : true = true → ¬ x.GoesOn d := by
    rintro - ⟨⟨p, hp, hmarked⟩, -⟩
    exact hexcluded ((isExcluded_of_some hp).mpr (.inl hmarked))
  have hnames : ∀ c : Component, c = d ↔ d ≤ c ∧ c ≤ d := fun c => by
    rw [and_comm]
    exact le_antisymm_iff
  refine ⟨⟨fun hadds => ?_, fun hsafe => ?_⟩, fun hsafe => hext.typed hx hd hgoes hsafe⟩
  · refine hext.not_twin fun c hc => ?_
    rw [← hnames]
    exact hadds c hc
  · intro c hc
    rw [Op.Names, hnames]
    exact hext.adds hx hd hgoes hsafe hc

/-- `excludeRange` adds exactly its range if and only if it neither splits nor has a twin. -/
theorem adds_excludeRange_iff (hx : x.Typed) {start stop : Component} (hstop : stop.WellFormed)
    (hlt : start < stop) :
    (x.Adds (.excludeRange start stop) ↔ ¬ x.Splits start stop ∧ ¬ x.Twin stop) ∧
      (¬ x.Splits start stop ∧ ¬ x.Twin stop → (x.apply (.excludeRange start stop)).Typed) := by
  obtain ⟨y, newFrom, closed, hy, hext, hsplits⟩ := extends_excludeRange (x := x) hlt
  have happly : x.apply (.excludeRange start stop) = y := by
    rw [apply, hy]
    rfl
  rw [← hsplits, Adds, happly]
  refine ⟨⟨fun hadds => ⟨?_, hext.not_twin hadds⟩, fun hsafe c hc => ?_⟩, fun hsafe => ?_⟩
  · rintro ⟨rfl, hgoes⟩
    exact hext.not_goesOn hstop hadds hgoes
  · exact hext.adds hx hstop (fun hclosed hgoes => hsafe.1 ⟨hclosed, hgoes⟩) hsafe.2 hc
  · exact hext.typed hx hstop (fun hclosed hgoes => hsafe.1 ⟨hclosed, hgoes⟩) hsafe.2

/-- `excludeBefore` adds exactly its range if and only if it is safe. -/
theorem adds_excludeBefore_iff (hx : x.Typed) {stop : Component} (hstop : stop.WellFormed) :
    (x.Adds (.excludeBefore stop) ↔ x.Safe (.excludeBefore stop)) ∧
      (x.Safe (.excludeBefore stop) → (x.apply (.excludeBefore stop)).Typed) := by
  by_cases hlt : .generic [] < stop
  · obtain ⟨hiff, htyped⟩ := adds_excludeRange_iff hx hstop hlt
    -- the end is generic, and it has no twin
    have htwin : ¬ x.Twin stop := fun h =>
      absurd hlt (lt_generic h.1 []).asymm
    have hsafe : x.Safe (.excludeBefore stop) ↔ ¬ x.Splits (.generic []) stop ∧ ¬ x.Twin stop := by
      rw [and_iff_left htwin]
      exact ⟨fun h => h.2 hlt, fun h => ⟨fun heq => absurd heq hlt.ne', fun _ => h⟩⟩
    rw [hsafe]
    exact ⟨hiff, htyped⟩
  have hsame : x.apply (.excludeBefore stop) = x := by
    rw [apply, excludeBefore, excludeRange, if_pos (not_lt.mp hlt)]
    rfl
  rw [Adds, hsame]
  refine ⟨⟨fun hadds => ⟨?_, fun h => absurd h hlt⟩, fun hsafe c _ => ?_⟩, fun _ => hx⟩
  · intro heq
    exact (hadds stop hstop).mpr (.inr ⟨heq.ge, le_rfl⟩)
  rw [or_iff_left_of_imp]
  rintro ⟨hle, hle'⟩
  have hc : c = stop := by order
  rw [hc]
  exact hsafe.1 (by order)

/-- An operation adds what it should exactly if it is safe. -/
theorem Typed.adds_iff (hx : x.Typed) {op : Op} (hop : op.WellFormed) :
    (x.Adds op ↔ x.Safe op) ∧ (x.Safe op → (x.apply op).Typed) := by
  cases op with
  | excludeOne comp => exact adds_excludeOne_iff hx hop
  | excludeRange start stop => exact adds_excludeRange_iff hx hop.2.1 hop.2.2
  | excludeBefore stop => exact adds_excludeBefore_iff hx hop
  | excludeAfter start =>
    exact ⟨iff_of_true (fun c _ => isExcluded_excludeAfter x start c) trivial,
      fun _ => typed_excludeAfter hx start⟩

/-- Every operation of a run adds what it names, and nothing else, exactly when no operation of the
run splits a range or leaves the digest of a twin. -/
theorem adds_iff_safe (ops : List Op) (hops : ∀ op ∈ ops, op.WellFormed) :
    Runs.Along apply Adds Exclude.none ops ↔ Runs.Along apply Safe Exclude.none ops := by
  have hrun : ∀ (ops : List Op) (x : Exclude), x.Typed → (∀ op ∈ ops, op.WellFormed) →
      (Runs.Along apply Adds x ops ↔ Runs.Along apply Safe x ops) := by
    intro ops
    induction ops with
    | nil => exact fun _ _ _ => Iff.rfl
    | cons op ops ih =>
      intro x hx hops
      obtain ⟨hiff, htyped⟩ := hx.adds_iff (hops op (List.mem_cons_self ..))
      have hrest := fun op' hop' => hops op' (List.mem_cons_of_mem _ hop')
      constructor
      · rintro ⟨hadds, hrun⟩
        have hsafe := hiff.mp hadds
        exact ⟨hsafe, (ih _ (htyped hsafe) hrest).mp hrun⟩
      · rintro ⟨hsafe, hrun⟩
        exact ⟨hiff.mpr hsafe, (ih _ (htyped hsafe) hrest).mpr hrun⟩
  exact hrun ops Exclude.none typed_none hops

/-- Two ranges that overlap. -/
theorem adds_iff_safe_overlap :
    Runs.Along apply Adds Exclude.none [.excludeRange (.generic [98]) (.generic [100]),
      .excludeRange (.generic [99]) (.generic [102])] := by
  refine (adds_iff_safe _ (by decide +kernel)).mpr ⟨⟨?_, by decide +kernel⟩,
    ⟨?_, by decide +kernel⟩, trivial⟩
  · rintro ⟨⟨k, h, -⟩, -⟩
    exact absurd h (by simp [Exclude.none, lowerBound])
  · rintro ⟨⟨k, hstart, hstop⟩, -⟩
    have heq := hstart.trans hstop.symm
    revert heq
    decide +kernel

/-- A range inside another one: `d` was excluded and is not any more.  And a digest: the generic
component with its octets is excluded as well. -/
theorem isExcluded_lost_and_twin :
    (let x := Exclude.none.apply (.excludeRange (.generic [97]) (.generic [122]))
     let y := x.apply (.excludeRange (.generic [98]) (.generic [99]))
     x.isExcluded (.generic [100]) = true ∧ y.isExcluded (.generic [100]) = false) ∧
    (Exclude.none.apply (.excludeOne (.implicitDigest (List.replicate 32 7)))).isExcluded
      (.generic (List.replicate 32 7)) = true := by
  decide +kernel

end Exclude

end IcnDemo
