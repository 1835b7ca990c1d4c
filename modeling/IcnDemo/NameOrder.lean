import IcnDemo.Lib.ListLex
import IcnDemo.Packet

/-!
# The canonical order of names

Components are ordered by type, then by size, then by bytes, and names lexicographically.  Both are
linear orders.  `Component::getSuccessor` yields the component that follows immediately, so the
names below a given one are an interval that ends at `Name::getSuccessor`.  The exception is a
digest of 32 bytes `0xFF`, whose successor would be a digest of 33 bytes and is not a component
at all.
-/

namespace IcnDemo

open List

/-! ### Linear orders -/

namespace Component

instance : Std.TransCmp compare :=
  inferInstanceAs (Std.TransCmp (compareLex (compareOn fun c : Component => c.type)
    (compareLex (compareOn fun c : Component => c.value.length)
      (compareOn fun c : Component => c.value))))

/-- Only equal components compare as equal. -/
theorem compare_eq_iff {c d : Component} : c.compare d = .eq ↔ c = d := by
  unfold compare
  rw [Ordering.then_eq_eq, Ordering.then_eq_eq, Std.LawfulEqCmp.compare_eq_iff_eq,
    Std.LawfulEqCmp.compare_eq_iff_eq, Std.LawfulEqCmp.compare_eq_iff_eq]
  constructor
  · rintro ⟨htype, -, hvalue⟩
    cases c
    cases d
    exact congrArg₂ mk htype hvalue
  · rintro rfl
    exact ⟨rfl, rfl, rfl⟩

instance : Std.LawfulEqCmp compare where
  eq_of_compare := compare_eq_iff.mp

/-! ### Successors -/

/-- The bytes in order. -/
def compareBytes (v w : List UInt8) : Ordering :=
  List.compareLex Ord.compare v w

/-- The first octet that differs decides. -/
theorem compareBytes_cons_eq_lt {b x : UInt8} {v w : List UInt8} :
    compareBytes (b :: v) (x :: w) = .lt ↔ b < x ∨ b = x ∧ compareBytes v w = .lt := by
  unfold compareBytes
  rw [List.compareLex_cons_cons, Ordering.then_eq_lt, Std.compare_eq_lt,
    Std.LawfulEqCmp.compare_eq_iff_eq]

/-- The first octet that differs decides, with equality. -/
theorem compareBytes_cons_isLE {b x : UInt8} {v w : List UInt8} :
    (compareBytes (b :: v) (x :: w)).isLE = true ↔
      b < x ∨ b = x ∧ (compareBytes v w).isLE = true := by
  unfold compareBytes
  rw [List.compareLex_cons_cons, Ordering.isLE_then_iff_or, Std.compare_eq_lt,
    Std.LawfulEqCmp.compare_eq_iff_eq]

/-- Nothing is greater than all octets 255. -/
theorem eq_of_ff_isLE {w : List UInt8} (h : (compareBytes (replicate w.length 255) w).isLE = true) :
    w = replicate w.length 255 := by
  induction w with
  | nil => rfl
  | cons x w ih =>
    rw [length_cons, replicate_succ, compareBytes_cons_isLE] at h
    rw [length_cons, replicate_succ]
    obtain hx | ⟨rfl, h⟩ := h
    · exact absurd x.toNat_lt (Nat.not_lt.mpr hx)
    · rw [← ih h]

/-- Nothing is smaller than all octets 0. -/
theorem not_lt_zeros (w : List UInt8) : compareBytes w (replicate w.length 0) ≠ .lt := by
  induction w with
  | nil => exact fun h => by cases h
  | cons x w ih => grind [compareBytes_cons_eq_lt]

/-- Incrementing keeps the length; without an overflow the result is the next string of this
length, and with an overflow all bytes were `0xFF` and are zero now. -/
theorem incrementBytes_spec (v : List UInt8) : (incrementBytes v).1.length = v.length ∧
    ((incrementBytes v).2 = false → compareBytes v (incrementBytes v).1 = .lt ∧
      ∀ w : List UInt8, w.length = v.length → (compareBytes v w).isLE = true →
        compareBytes w (incrementBytes v).1 = .lt → w = v) ∧
    ((incrementBytes v).2 = true →
      v = replicate v.length 255 ∧ (incrementBytes v).1 = replicate v.length 0) := by
  induction v with
  | nil => exact ⟨rfl, (fun h => by cases h), fun _ => ⟨rfl, rfl⟩⟩
  | cons b v ih =>
    obtain ⟨hlength, hnext, hoverflow⟩ := ih
    rcases hr : (incrementBytes v).2 with _ | _
    · obtain ⟨hlt, hgap⟩ := hnext hr
      simp only [incrementBytes, hr, Bool.false_eq_true, if_false, length_cons, hlength, true_and]
      refine ⟨fun _ => ⟨compareBytes_cons_eq_lt.mpr (.inr ⟨rfl, hlt⟩), ?_⟩, (fun h => by cases h)⟩
      rintro (_ | ⟨x, w⟩) hw hle hless
      · cases hw
      rw [compareBytes_cons_isLE] at hle
      rw [compareBytes_cons_eq_lt] at hless
      grind
    obtain ⟨hff, hzero⟩ := hoverflow hr
    simp only [incrementBytes, hr, if_true, length_cons, hlength, true_and,
      beq_eq_false_iff_ne, beq_iff_eq]
    refine ⟨fun hne => ⟨compareBytes_cons_eq_lt.mpr (.inl ?_), ?_⟩, fun heq => ?_⟩
    · grind
    · rintro (_ | ⟨x, w⟩) hw hle hless
      · cases hw
      have hlen : w.length = v.length := Nat.succ_injective hw
      rw [compareBytes_cons_isLE] at hle
      rw [compareBytes_cons_eq_lt, hzero, ← hlen] at hless
      -- the first byte is below `b + 1`, so it is `b` and the rest is all `0xFF`
      grind [eq_of_ff_isLE, not_lt_zeros]
    · grind

/-- A component that the library can construct. -/
def WellFormed (c : Component) : Prop :=
  c.isGeneric = true ∨ c.isImplicitSha256Digest = true

instance (c : Component) : Decidable c.WellFormed :=
  inferInstanceAs (Decidable (_ ∨ _))

/-- The successor is the increment, if that can be constructed. -/
theorem getSuccessor_eq_some_iff {c s : Component} : c.getSuccessor = some s ↔ s.WellFormed ∧
      s = ⟨c.type, if (incrementBytes c.value).2 then (incrementBytes c.value).1 ++ [0]
        else (incrementBytes c.value).1⟩ := by grind [getSuccessor, WellFormed]

/-- The digest without a successor. -/
def maxDigest : Component :=
  implicitDigest (replicate 32 255)

/-- Only the greatest digest has no successor. -/
theorem getSuccessor_eq_none_iff {c : Component} (hc : c.WellFormed) :
    c.getSuccessor = none ↔ c = maxDigest := by
  obtain ⟨hlength, -, hoverflow⟩ := incrementBytes_spec c.value
  rw [Option.eq_none_iff_forall_ne_some]
  simp only [ne_eq, getSuccessor_eq_some_iff]
  rcases hc with hgeneric | hdigest
  · have hne : c ≠ maxDigest := by
      rintro rfl
      revert hgeneric
      decide
    simp only [hne, iff_false, not_forall, not_not]
    refine ⟨_, .inl ?_, rfl⟩
    exact hgeneric
  obtain ⟨htype, hsize⟩ : c.type = Tlv.implicitSha256DigestComponent ∧ c.value.length = 32 := by
    simpa [isImplicitSha256Digest] using hdigest
  rcases hr : (incrementBytes c.value).2 with _ | _
  · have hne : c ≠ maxDigest := by
      rintro rfl
      revert hr
      decide
    simp only [hne, iff_false, not_forall, not_not]
    refine ⟨_, .inr ?_, rfl⟩
    simp [isImplicitSha256Digest, htype, hlength, hsize]
  have hmax : c = maxDigest := by
    have hff := (hoverflow hr).1
    rw [hsize] at hff
    cases c
    exact congrArg₂ mk htype hff
  refine iff_of_true ?_ hmax
  rintro s ⟨hwf, rfl⟩
  rw [if_pos rfl] at hwf
  rcases hwf with hbad | hbad
  · simp [isGeneric, htype, Tlv.nameComponent, Tlv.implicitSha256DigestComponent] at hbad
  · simp [isImplicitSha256Digest, hlength, hsize] at hbad

/-- Components are ordered by type, length and octets. -/
theorem compare_eq_lt_iff {c d : Component} : c.compare d = .lt ↔ c.type < d.type ∨
    c.type = d.type ∧ (c.value.length < d.value.length ∨
      c.value.length = d.value.length ∧ compareBytes c.value d.value = .lt) := by
  unfold compare
  rw [Ordering.then_eq_lt, Ordering.then_eq_lt, Std.compare_eq_lt, Std.compare_eq_lt,
    Std.LawfulEqCmp.compare_eq_iff_eq, Std.LawfulEqCmp.compare_eq_iff_eq]
  rfl

/-- The order with equality. -/
theorem compare_isLE_iff {c d : Component} : (c.compare d).isLE = true ↔ c.type < d.type ∨
    c.type = d.type ∧ (c.value.length < d.value.length ∨
      c.value.length = d.value.length ∧ (compareBytes c.value d.value).isLE = true) := by
  unfold compare
  rw [Ordering.isLE_then_iff_or, Ordering.isLE_then_iff_or, Std.compare_eq_lt, Std.compare_eq_lt,
    Std.LawfulEqCmp.compare_eq_iff_eq, Std.LawfulEqCmp.compare_eq_iff_eq]
  rfl

/-- There is nothing between a component and its successor. -/
theorem getSuccessor_next {c s : Component} (h : c.getSuccessor = some s) :
    c.compare s = .lt ∧ ∀ d : Component, (c.compare d).isLE = true → d.compare s = .lt → d = c := by
  obtain ⟨-, rfl⟩ := getSuccessor_eq_some_iff.mp h
  obtain ⟨hlength, hnext, hoverflow⟩ := incrementBytes_spec c.value
  simp only [compare_eq_lt_iff, compare_isLE_iff]
  have hd : ∀ d : Component, d.type = c.type → d.value = c.value → d = c := by
    rintro ⟨⟩ rfl rfl
    rfl
  rcases hr : (incrementBytes c.value).2 with _ | _
  · obtain ⟨hlt, hgap⟩ := hnext hr
    simp only [Bool.false_eq_true, if_false, hlength]
    exact ⟨by simp [hlt], fun d hle hless => hd d (by omega)
      (hgap d.value (by omega) (by grind) (by grind))⟩
  obtain ⟨hff, hzero⟩ := hoverflow hr
  simp only [if_true, length_append, hlength, length_singleton]
  refine ⟨by simp, fun d hle hless => hd d (by omega) ?_⟩
  have hlen : d.value.length = c.value.length := by
    by_contra hne
    -- as long as the successor, which is all zero
    have hbytes := not_lt_zeros d.value
    rw [show d.value.length = c.value.length + 1 by omega, replicate_succ', ← hzero] at hbytes
    grind
  rw [hff, ← hlen]
  refine eq_of_ff_isLE ?_
  rw [hlen, ← hff]
  grind

/-- A component without 32 octets is generic. -/
theorem WellFormed.eq_generic {c : Component} (h : c.WellFormed) (hlen : c.value.length ≠ 32) :
    c = generic c.value := by
  rcases h with hgeneric | hdigest
  · have htype : c.type = Tlv.nameComponent := by simpa [isGeneric] using hgeneric
    cases c
    exact congrArg₂ mk htype rfl
  · simp [isImplicitSha256Digest, hlen] at hdigest

/-- The component of the other type with the same octets. -/
def twin (c : Component) : Component :=
  if c.isGeneric then implicitDigest c.value else generic c.value

/-- A component of 32 octets has a twin of the other type. -/
theorem twin_spec {c : Component} (hlen : c.value.length = 32) :
    c.twin.WellFormed ∧ c.twin.value = c.value ∧ c.twin ≠ c := by
  unfold twin
  by_cases hgeneric : c.isGeneric = true
  · rw [if_pos hgeneric]
    refine ⟨.inr (by simp [isImplicitSha256Digest, implicitDigest, hlen]), rfl, fun heq => ?_⟩
    rw [← heq] at hgeneric
    cases hgeneric
  · rw [if_neg hgeneric]
    refine ⟨.inl rfl, rfl, fun heq => hgeneric ?_⟩
    rw [← heq]
    rfl

end Component

/-! ### Names -/

namespace Name

instance : Std.TransCmp compare :=
  inferInstanceAs (Std.TransCmp (List.compareLex Component.compare))

instance : Std.LawfulEqCmp compare :=
  inferInstanceAs (Std.LawfulEqCmp (List.compareLex Component.compare))

/-- All components are such as the library can construct. -/
def WellFormed (n : Name) : Prop :=
  ∀ c ∈ n, c.WellFormed

instance (n : Name) : Decidable n.WellFormed :=
  inferInstanceAs (Decidable (∀ c ∈ n, c.WellFormed))

/-- The names that begin with a name are those before its successor. -/
theorem isPrefix_iff_between {n m : Name} (hne : n ≠ []) (h : n.getSuccessor = some m)
    (x : Name) : n <+: x ↔ (compare n x).isLE = true ∧ compare x m = .lt := by
  have hlast : n.getLast? = some (n.getLast hne) := getLast?_eq_some_getLast hne
  unfold getSuccessor at h
  rw [hlast] at h
  obtain ⟨s, hs, rfl⟩ := Option.map_eq_some_iff.mp h
  obtain ⟨hlt, hgap⟩ := Component.getSuccessor_next hs
  have hiff := ListLex.isPrefix_iff_between hlt hgap n.dropLast x
  rwa [dropLast_append_getLast hne] at hiff

/-- Without components of 32 octets a prefix by value is a prefix. -/
theorem initial_of_isPrefixOf {n m : Name} (hn : n.WellFormed) (hm : m.WellFormed)
    (hlen : ∀ c ∈ n, c.value.length ≠ 32) (h : n.isPrefixOf m = true) : n <+: m := by
  rw [isPrefixOf_iff] at h
  induction n generalizing m with
  | nil => exact nil_prefix
  | cons c n ih =>
    rcases m with _ | ⟨d, m⟩
    · simp [values] at h
    simp only [values, map_cons, cons_prefix_cons] at h
    obtain ⟨hc, hn⟩ := forall_mem_cons.mp hn
    obtain ⟨hd, hm⟩ := forall_mem_cons.mp hm
    obtain ⟨hclen, hlen⟩ := forall_mem_cons.mp hlen
    have hcd : c = d := by
      rw [hc.eq_generic hclen, hd.eq_generic (h.1 ▸ hclen), h.1]
    exact cons_prefix_cons.mpr ⟨hcd, ih hn hm hlen h.2⟩

/-- What the successor of a name is for: it tells of another name, together with the name itself,
whether the name is a prefix of it. -/
def Bounds (n m : Name) : Prop :=
  ∃ s, n.getSuccessor = some s ∧
    ((compare n m).isLE = true ∧ compare m s = .lt ↔ n.isPrefixOf m = true)

/-- The canonical order is total. -/
def CompareTotal : Prop :=
  ∀ a b : Name, (compare a b = .eq ↔ a = b) ∧ compare b a = (compare a b).swap ∧
    ∀ c, (compare a b).isLE = true → (compare b c).isLE = true → (compare a c).isLE = true

/-- The order of names is total. -/
theorem compareTotal : CompareTotal :=
  fun _ _ => ⟨Std.LawfulEqCmp.compare_eq_iff_eq, Std.OrientedCmp.eq_swap,
    fun _ hab hbc => Std.TransCmp.isLE_trans hab hbc⟩

/-- A name has a successor unless it ends with the greatest digest. -/
theorem exists_getSuccessor_iff {n : Name} (hn : n.WellFormed) (hne : n ≠ []) :
    (∃ s, n.getSuccessor = some s) ↔ n.getLast hne ≠ Component.maxDigest := by
  rw [ne_eq, ← Component.getSuccessor_eq_none_iff (hn _ (n.getLast_mem hne)), getSuccessor,
    getLast?_eq_some_getLast hne]
  rcases hs : (n.getLast hne).getSuccessor with _ | s <;> simp [hs]

/-- The successor is defined and bounds the names that begin with a name.  These are the names that
it is a prefix of, but for those in which a component has another type. -/
theorem bounds_iff {n : Name} (hn : n.WellFormed) (hne : n ≠ []) (m : Name) :
    (n.Bounds m ↔ n.getLast hne ≠ Component.maxDigest ∧ (n.isPrefixOf m = true → n <+: m)) ∧
      CompareTotal := by
  refine ⟨?_, compareTotal⟩
  rw [← exists_getSuccessor_iff hn hne]
  constructor
  · rintro ⟨s, hs, hiff⟩
    exact ⟨⟨s, hs⟩, fun h => (isPrefix_iff_between hne hs m).mpr (hiff.mpr h)⟩
  · rintro ⟨⟨s, hs⟩, htypes⟩
    exact ⟨s, hs, (isPrefix_iff_between hne hs m).symm.trans ⟨isPrefixOf_of_initial, htypes⟩⟩

/-- A name of one short component, and a name under it. -/
theorem bounds_short : Bounds [.generic [0x41, 0xFF]] [.generic [0x41, 0xFF], .generic [1]] :=
  (bounds_iff (by decide) (by decide) _).1.mpr ⟨by decide, fun _ => by decide⟩

/-- The greatest digest has no successor.  A generic component of 32 octets is a prefix of the
digest with these octets, which comes before it.  And any component is a prefix of the one of type 9
with its octets, which comes after its successor. -/
theorem getSuccessor_throws_and_twins :
    WellFormed [Component.maxDigest] ∧ getSuccessor [Component.maxDigest] = none ∧
      isPrefixOf [.generic (replicate 32 0)] [.implicitDigest (replicate 32 0)] = true ∧
      compare [.generic (replicate 32 0)] [.implicitDigest (replicate 32 0)] = .gt ∧
      isPrefixOf [.generic [0x41]] [⟨9, [0x41]⟩] = true ∧
      getSuccessor [.generic [0x41]] = some [.generic [0x42]] ∧
      compare [⟨9, [0x41]⟩] [.generic [0x42]] = .gt := by
  decide

/-- No successor tells the names that a name is a prefix of from all others. -/
theorem not_forall_bounds {n : Name} (hne : n ≠ []) : ¬ ∀ m, n.Bounds m := by
  intro hall
  set c := n.getLast hne
  -- the name with another type in its last component
  have hprefixed : n.isPrefixOf (n.dropLast ++ [⟨c.type + 1, c.value⟩]) = true := by
    nth_rewrite 1 [← dropLast_append_getLast hne]
    rw [isPrefixOf_iff]
    simp [values, c]
  obtain ⟨s, hs, hiff⟩ := hall (n.dropLast ++ [⟨c.type + 1, c.value⟩])
  have hinitial := (isPrefix_iff_between hne hs _).mpr (hiff.mpr hprefixed)
  have hlength : n.length = (n.dropLast ++ [(⟨c.type + 1, c.value⟩ : Component)]).length := by
    rw [length_append, length_dropLast, length_singleton]
    have := length_pos_iff.mpr hne
    omega
  have heq := hinitial.eq_of_length hlength
  nth_rewrite 1 [← dropLast_append_getLast hne] at heq
  have htype := congrArg Component.type (cons.inj (append_cancel_left heq)).1
  simp [c] at htype

/-- Among the names that the library can construct, it does so for the names without a component of
32 octets. -/
theorem forall_wellFormed_bounds_iff {n : Name} (hn : n.WellFormed) (hne : n ≠ []) :
    (∀ m : Name, m.WellFormed → n.Bounds m) ↔ ∀ c ∈ n, c.value.length ≠ 32 := by
  constructor
  · intro hall c hc hlen
    obtain ⟨before, behind, rfl⟩ := append_of_mem hc
    obtain ⟨hwf, hvalue, hother⟩ := Component.twin_spec hlen
    have hm : WellFormed (before ++ c.twin :: behind) := by
      intro d hd
      rcases mem_append.mp hd with hd | hd
      · exact hn d (mem_append_left _ hd)
      · rcases mem_cons.mp hd with rfl | hd
        · exact hwf
        · exact hn d (mem_append_right _ (mem_cons_of_mem _ hd))
    have hprefixed : isPrefixOf (before ++ c :: behind) (before ++ c.twin :: behind) = true := by
      rw [isPrefixOf_iff]
      simp [values, hvalue]
    obtain ⟨s, hs, hiff⟩ := hall _ hm
    have hinitial := (isPrefix_iff_between hne hs _).mpr (hiff.mpr hprefixed)
    have heq := hinitial.eq_of_length (by simp)
    exact hother (cons.inj (append_cancel_left heq)).1.symm
  · intro hlen m hm
    have hlast : n.getLast hne ≠ Component.maxDigest := by
      intro heq
      refine hlen _ (n.getLast_mem hne) ?_
      rw [heq]
      decide
    obtain ⟨s, hs⟩ := (exists_getSuccessor_iff hn hne).mpr hlast
    exact ⟨s, hs, (isPrefix_iff_between hne hs m).symm.trans
      ⟨isPrefixOf_of_initial, initial_of_isPrefixOf hn hm hlen⟩⟩

end Name

end IcnDemo
