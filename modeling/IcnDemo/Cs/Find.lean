import IcnDemo.Cs.Scan

/-!
# What a lookup finds, and when it is safe

`FindSpec` says which entry a lookup has to find.  For an Interest without a digest in its name the
lookup is right.  For an Interest that ends with a digest it looks only at the entry with this full
name; but an entry with a longer name satisfies the Interest as well, if it has an ordinary
component with the bytes of the digest, since the library compares components by their bytes.

`FindSafe` says when a lookup ends without an exception and stays inside the table.  The greatest
digest has no successor, and a rightmost lookup for a full name runs to the left of its range unless
it is stopped by a satisfying entry.
-/

namespace IcnDemo.Cs

open List

/-! ### Specification -/

/-- The smallest satisfying entry. -/
def IsLeftmost (cs : Cs) (i : Interest) (now : ℤ) (e : CsEntry) : Prop :=
  e ∈ cs.table ∧ e.canSatisfy i now = true ∧
    ∀ e' ∈ cs.table, e'.canSatisfy i now = true → compareDataWithData e.data e'.data ≠ .gt

/-- The part of a name that is one component longer than that of the Interest. -/
def childOf (i : Interest) (e : CsEntry) : Name :=
  e.data.name.getPrefix (i.name.length + 1)

/-- The smallest satisfying entry of the greatest child of the name of the Interest that has one;
or, if no child has any, the greatest satisfying entry with this very name. -/
def IsRightmost (cs : Cs) (i : Interest) (now : ℤ) (e : CsEntry) : Prop :=
  e ∈ cs.table ∧ e.canSatisfy i now = true ∧ ((i.name.length < e.data.name.length ∧
        ∀ e' ∈ cs.table, e'.canSatisfy i now = true → i.name.length < e'.data.name.length →
          Name.compare (childOf i e') (childOf i e) ≠ .gt ∧
            (childOf i e' = childOf i e → compareDataWithData e.data e'.data ≠ .gt)) ∨
      (e.data.name = i.name ∧ ∀ e' ∈ cs.table, e'.canSatisfy i now = true →
          e'.data.name = i.name ∧ compareDataWithData e'.data e.data ≠ .gt))

/-- What a lookup has to return. -/
def FindSpec (cs : Cs) (i : Interest) (now : ℤ) : Option CsEntry → Prop
  | none => ∀ e ∈ cs.table, e.canSatisfy i now = false
  | some e =>
      if i.selectors.childSelector = 1 then cs.IsRightmost i now e else cs.IsLeftmost i now e

/-- No Data name has a digest component. -/
def GenericNames (cs : Cs) : Prop :=
  ∀ e ∈ cs.table, ∀ c ∈ e.data.name, c.isGeneric = true

instance (cs : Cs) : Decidable cs.GenericNames :=
  inferInstanceAs (Decidable (∀ e ∈ cs.table, ∀ c ∈ e.data.name, c.isGeneric = true))

/-- Neither an exception is thrown nor does an iterator leave the table. -/
def FindSafe (cs : Cs) (i : Interest) (now : ℤ) : Prop :=
  i.name.getLast? ≠ some .maxDigest ∧
    (i.selectors.childSelector = 1 → ∀ e ∈ cs.table, e.data.fullName = i.name →
      e.canSatisfy i now = true ∨
        (∀ e' ∈ cs.table, below i.name e' = true → below i.name.dropLast e' = true) ∨
        ∃ e' ∈ cs.table, below i.name e' = true ∧ e'.canSatisfy i now = true)

variable {cs : Cs} {i : Interest} {now : ℤ}

/-! ### Names without digests -/

/-- A name of generic components is determined by its values. -/
theorem eq_map_generic {n : Name} (h : ∀ c ∈ n, c.isGeneric = true) :
    n = (Name.values n).map .generic := by
  unfold Name.values
  rw [map_map]
  refine (map_id n).symm.trans (map_congr_left fun c hc => ?_)
  have htype := h c hc
  simp only [Component.isGeneric, beq_iff_eq] at htype
  cases c
  exact congrArg₂ Component.mk htype rfl

/-- Among names of generic components the prefixes are those by value. -/
theorem isPrefix_of_isPrefixOf {n m : Name} (hn : ∀ c ∈ n, c.isGeneric = true)
    (hm : ∀ c ∈ m, c.isGeneric = true) (h : Name.isPrefixOf n m = true) : n <+: m := by
  rw [eq_map_generic hn, eq_map_generic hm]
  exact (Name.isPrefixOf_iff.mp h).map _

variable {e : CsEntry}

/-- An entry that can satisfy an Interest has Data that matches. -/
theorem matchesData_of_canSatisfy (h : e.canSatisfy i now = true) :
    i.matchesData e.data = true := by
  unfold CsEntry.canSatisfy at h
  simp_all

/-- The name of such Data extends the name of the Interest. -/
theorem matchesPrefix_of_canSatisfy (h : e.canSatisfy i now = true) :
    i.matchesPrefix e.data = true := by
  have hmatch := matchesData_of_canSatisfy h
  grind [Interest.matchesData]

/-- A name of generic components is no full name. -/
theorem not_full_of_generic {q : Name} (hq : ∀ c ∈ q, c.isGeneric = true) :
    q.queryIsFullName = false := by
  cases hfull : q.queryIsFullName with
  | false => rfl
  | true =>
    obtain ⟨p, c, rfl, hc⟩ := exists_of_queryIsFullName hfull
    simp_all [Component.isGeneric, Component.isImplicitSha256Digest, Tlv.nameComponent,
      Tlv.implicitSha256DigestComponent]

/-- Such Data has the name of the Interest as a prefix. -/
theorem isPrefix_of_canSatisfy (hi : ∀ c ∈ i.name, c.isGeneric = true)
    (he : ∀ c ∈ e.data.name, c.isGeneric = true) (h : e.canSatisfy i now = true) :
    i.name <+: e.data.name := by
  have hext := matchesPrefix_of_canSatisfy h
  unfold Interest.matchesPrefix at hext
  split at hext
  · have hfull := not_full_of_generic hi
    grind [Name.queryIsFullName]
  · exact isPrefix_of_isPrefixOf hi he hext

/-! ### Rightmost lookup inside the range -/

/-- The best entry of the positions from `first` to `right`. -/
def BestBefore (cs : Cs) (i : Interest) (now : ℤ) (right m : ℕ) (e : CsEntry) : Prop :=
  (i.name.length < e.data.name.length ∧
      ∀ k e', cs.table[k]? = some e' → k < right → cs.lowerBound i.name ≤ k →
        e'.canSatisfy i now = true → i.name.length < e'.data.name.length →
        (Name.compare (childOf i e') (childOf i e)).isLE = true ∧
          (childOf i e' = childOf i e → m ≤ k)) ∨
    (e.data.name = i.name ∧ ∀ k e', cs.table[k]? = some e' → k < right → cs.lowerBound i.name ≤ k →
        e'.canSatisfy i now = true → e'.data.name = i.name ∧ k ≤ m)

/-- The best before a place is the best before a later one, if nothing lies between. -/
theorem BestBefore.extend {left right m : ℕ} (h : BestBefore cs i now left m e)
    (hnone : ∀ k, left ≤ k → k < right → ¬ cs.Sat i now k) : BestBefore cs i now right m e := by
  have hlt : ∀ k e', cs.table[k]? = some e' → k < right → e'.canSatisfy i now = true →
      k < left := by
    intro k e' he' hk hsat
    by_contra hge
    exact hnone k (not_lt.mp hge) hk ⟨e', he', hsat⟩
  rcases h with ⟨hlonger, hbest⟩ | ⟨hname, hbest⟩
  · exact .inl ⟨hlonger, fun k e' he' hk hfirst hsat =>
      hbest k e' he' (hlt k e' he' hk hsat) hfirst hsat⟩
  · exact .inr ⟨hname, fun k e' he' hk hfirst hsat =>
      hbest k e' he' (hlt k e' he' hk hsat) hfirst hsat⟩

/-- The range of a child begins not before the range of the name. -/
theorem lowerBound_le_child (hq : i.name.queryIsFullName = false)
    (hext : i.name <+: e.data.name) (hlonger : i.name.length < e.data.name.length) :
    cs.lowerBound i.name ≤ cs.lowerBound (childOf i e) := by
  obtain ⟨t, ht⟩ := hext
  obtain ⟨c, t, rfl⟩ : ∃ c t', t = c :: t' := by
    cases t with
    | nil => simp_all
    | cons c t => exact ⟨c, t, rfl⟩
  have hchild : childOf i e = i.name ++ [c] := by
    unfold childOf Name.getPrefix
    rw [← ht, take_length_add_append]
    rfl
  rw [hchild]
  refine lowerBound_le_of_below fun e' _ hbelow => ?_
  rw [below_iff_of_not_full hq] at hbelow
  cases hc : c.isImplicitSha256Digest with
  | true =>
    rw [below_append hc]
    unfold comparePairs pairOf
    rw [hbelow]
    rfl
  | false =>
    rw [below_iff_of_not_full (by rw [queryIsFullName_append, hc])]
    exact ListLex.append_gt [c] hbelow

/-- Entries between the begin of the range of a child and the end are in it. -/
theorem childOf_eq_of_between (hgen : cs.GenericNames) {k prev : ℕ} {e e' : CsEntry}
    (he : cs.table[prev]? = some e) (he' : cs.table[k]? = some e') (hk : k ≤ prev)
    (hleft : cs.lowerBound (childOf i e) ≤ k) (hlonger : i.name.length < e.data.name.length) :
    childOf i e' = childOf i e ∧ i.name.length < e'.data.name.length := by
  have hpre : childOf i e <+: e.data.name := take_prefix _ _
  have hfull : Name.queryIsFullName (childOf i e) = false :=
    not_full_of_generic fun c hc => hgen e (mem_of_getElem? he) c (hpre.subset hc)
  have hle : (Name.compare (childOf i e) e'.data.name).isLE = true := by
    rw [← not_lt, lt_lowerBound_iff he', below_iff_of_not_full hfull] at hleft
    cases hcmp : Name.compare (childOf i e) e'.data.name with
    | gt => exact absurd hcmp hleft
    | lt => rfl
    | eq => rfl
  have hpre' := ListLex.isPrefix_of_between hle (name_isLE_of_le he' he hk) hpre
  grind [childOf, Name.getPrefix, prefix_iff_eq_take]

variable (now) in
/-- The loop of `findRightmost`, as long as it is inside the range of a name without a digest. -/
theorem findRightmostLoop_spec (last : ℕ) (hq : i.name.queryIsFullName = false) (fuel : ℕ) :
    ∀ right, cs.lowerBound i.name ≤ right → right ≤ cs.table.length →
      (∀ k e, cs.table[k]? = some e → cs.lowerBound i.name ≤ k → k < right →
        i.name <+: e.data.name) →
      right < fuel + cs.lowerBound i.name →
      ∃ m, cs.findRightmostLoop i now (cs.lowerBound i.name) last fuel right = .ok m ∧
        ((m = last ∧ ∀ k, cs.lowerBound i.name ≤ k → k < right → ¬ cs.Sat i now k) ∨
          (m < right ∧ cs.Sat i now m ∧
            (cs.GenericNames → ∀ e, cs.table[m]? = some e → BestBefore cs i now right m e))) := by
  induction fuel with
  | zero =>
    intro right hfirst _ _ hfuel
    omega
  | succ fuel ih =>
    intro right hfirst hlen hrange hfuel
    rcases hfirst.eq_or_lt with rfl | hlt
    · refine ⟨last, ?_, .inl ⟨rfl, fun k h h' => absurd h' (not_lt.mpr h)⟩⟩
      unfold findRightmostLoop
      rw [if_pos rfl]
    obtain ⟨prev, rfl⟩ : ∃ prev, right = prev + 1 := ⟨right - 1, by omega⟩
    obtain ⟨e, he⟩ : ∃ e, cs.table[prev]? = some e := exists_entry (by omega)
    have hext := hrange prev e he (by omega) (Nat.lt_succ_self prev)
    rw [findRightmostLoop_succ hlt.ne' he]
    by_cases hexact : e.data.name.length = i.name.length
    · -- all names in the rest of the range are the name of the Interest
      rw [if_pos hexact]
      have hname : e.data.name = i.name := (hext.eq_of_length hexact.symm).symm
      have hall : ∀ k e', cs.table[k]? = some e' → cs.lowerBound i.name ≤ k → k < prev + 1 →
          e'.data.name = i.name := by
        intro k e' he' hk hkr
        have hle := name_isLE_of_le he' he (Nat.lt_succ_iff.mp hkr)
        rw [hname] at hle
        have hback := Std.OrientedCmp.isLE_antisymm hle
          (ListLex.isLE_of_isPrefix (hrange k e' he' hk hkr))
        exact Std.LawfulEqCmp.compare_eq_iff_eq.mp hback
      obtain ⟨m, hm, hcases⟩ := findLastIf_spec (prev + 1) (prev + 1) hfirst hlen
      unfold findRightmostAmongExact
      rw [hm]
      rcases hcases with ⟨rfl, hnone⟩ | ⟨hfm, hmr, hsat, hafter⟩
      · exact ⟨last, by simp [Except.map], .inl ⟨rfl, hnone⟩⟩
      refine ⟨m, by simp [Except.map, hmr.ne], .inr ⟨hmr, hsat, fun _ e' he' => .inr ⟨?_, ?_⟩⟩⟩
      · exact hall m e' he' hfm hmr
      · intro k e'' he'' hk hfirst' hsat''
        refine ⟨hall k e'' he'' hfirst' hk, ?_⟩
        by_contra hgt
        exact hafter k (not_le.mp hgt) hk ⟨e'', he'', hsat''⟩
    rw [if_neg hexact]
    have hlonger : i.name.length < e.data.name.length :=
      lt_of_le_of_ne hext.length_le (Ne.symm hexact)
    have hleft : cs.lowerBound (childOf i e) ≤ prev := lowerBound_getPrefix_le he _
    have hfirstleft : cs.lowerBound i.name ≤ cs.lowerBound (childOf i e) :=
      lowerBound_le_child hq hext hlonger
    obtain ⟨m, hm, hfm, hml, hbefore, hfound⟩ := findLeftmost_spec cs i now
      (hleft.trans (Nat.le_succ prev)) hlen
    change ∃ m', (cs.findLeftmost i now (cs.lowerBound (childOf i e)) (prev + 1)).bind _ = _ ∧ _
    rw [hm]
    by_cases hend : m = prev + 1
    · -- nothing in this child: go on with the next one
      obtain ⟨m', hm', hcases⟩ := ih (cs.lowerBound (childOf i e)) hfirstleft (by omega)
        (fun k e' he' hk hkr => hrange k e' he' hk (by omega)) (by omega)
      have hnone : ∀ k, cs.lowerBound (childOf i e) ≤ k → k < prev + 1 → ¬ cs.Sat i now k :=
        fun k hk hkr => hbefore k hk (by omega)
      refine ⟨m', ?_, ?_⟩
      · simp only [Except.bind, hend, ne_eq, not_true_eq_false, if_false]
        exact hm'
      rcases hcases with ⟨rfl, hrest⟩ | ⟨hmr, hsat, hbest⟩
      · grind
      · exact .inr ⟨by omega, hsat, fun hgen e' he' => (hbest hgen e' he').extend hnone⟩
    · have hmr : m < prev + 1 := by omega
      refine ⟨m, ?_, .inr ⟨hmr, hfound hmr, fun hgen e' he' => .inl ?_⟩⟩
      · simp [Except.bind, hend]
      obtain ⟨hchild, hlonger'⟩ := childOf_eq_of_between hgen he he' (by omega) hfm hlonger
      refine ⟨hlonger', fun k e'' he'' hk _ hsat hlonger'' => ⟨?_, fun hsame => ?_⟩⟩
      · rw [hchild]
        exact ListLex.take_isLE (name_isLE_of_le he'' he (by omega)) _
      by_contra hless
      refine hbefore k ?_ (not_le.mp hless) ⟨e'', he'', hsat⟩
      rw [hchild] at hsame
      rw [← hsame]
      exact lowerBound_getPrefix_le he'' _

/-! ### The result of a lookup -/

/-- The entries are in the order of their Data. -/
theorem compareDataWithData_ne_gt {k k' : ℕ} {e e' : CsEntry} (he : cs.table[k]? = some e)
    (he' : cs.table[k']? = some e') (h : k ≤ k') : compareDataWithData e.data e'.data ≠ .gt := by
  rw [compareDataWithData_eq]
  grind [comparePairs_of_lt]

/-- The match is the rightmost or the leftmost one of the range. -/
theorem findMatch_eq {last : ℕ} (hend : cs.findEnd i.name = .ok last) :
    cs.findMatch i now = (if i.selectors.childSelector = 1 then
      cs.findRightmost i now (cs.lowerBound i.name) last
      else cs.findLeftmost i now (cs.lowerBound i.name) last).map fun m => (m, last) := by
  rw [findMatch, hend]
  rfl

/-- If the match is the end of the range, nothing is found. -/
theorem find_of_end {last : ℕ} (h : cs.findMatch i now = .ok (last, last)) :
    cs.find i now = .ok none := by
  unfold find
  rw [h]
  simp [Except.bind]

/-- If the match is before the end of the range, it is found. -/
theorem find_of_match {m last : ℕ} (h : cs.findMatch i now = .ok (m, last))
    (hne : m ≠ last) (he : cs.table[m]? = some e) : cs.find i now = .ok (some e) := by
  unfold find
  rw [h]
  simp [Except.bind, hne, he]

variable (now) in
/-- The leftmost entry of the range that can satisfy the Interest is found. -/
theorem find_leftmost (hcs : i.selectors.childSelector ≠ 1) {last : ℕ}
    (hend : cs.findEnd i.name = .ok last) (hlast : last ≤ cs.table.length)
    (hle : cs.lowerBound i.name ≤ last) :
    ∃ r, cs.find i now = .ok r ∧
      ((r = none ∧ ∀ k, cs.lowerBound i.name ≤ k → k < last → ¬ cs.Sat i now k) ∨
        ∃ m e, r = some e ∧ cs.table[m]? = some e ∧ cs.lowerBound i.name ≤ m ∧ m < last ∧
          e.canSatisfy i now = true ∧
          ∀ k, cs.lowerBound i.name ≤ k → k < m → ¬ cs.Sat i now k) := by
  obtain ⟨m, hm, hfm, hml, hbefore, hfound⟩ := findLeftmost_spec cs i now hle hlast
  have hmatch : cs.findMatch i now = .ok (m, last) := by
    rw [findMatch_eq hend, if_neg hcs, hm]
    rfl
  rcases hml.eq_or_lt with rfl | hlt
  · exact ⟨none, find_of_end hmatch, .inl ⟨rfl, hbefore⟩⟩
  · obtain ⟨e, he, hsat⟩ := hfound hlt
    grind [find_of_match]

variable (cs now) in
/-- A lookup for a name without a final digest is safe, and it is right if there are no digests in
names at all. -/
theorem find_of_not_full (hwf : i.name.WellFormed) (hq : i.name.queryIsFullName = false) :
    ∃ r, cs.find i now = .ok r ∧
      (cs.GenericNames → (∀ c ∈ i.name, c.isGeneric = true) → cs.FindSpec i now r) := by
  obtain ⟨last, hend, hlast, hle, hrange⟩ := findEnd_of_not_full cs hwf hq
  have hinside : cs.GenericNames → (∀ c ∈ i.name, c.isGeneric = true) →
      ∀ e ∈ cs.table, e.canSatisfy i now = true →
        ∃ k, cs.table[k]? = some e ∧ cs.lowerBound i.name ≤ k ∧ k < last := by
    intro hgen hi e hmem hsat
    obtain ⟨k, he⟩ := mem_iff_getElem?.mp hmem
    exact ⟨k, he, (hrange k e he).mpr (isPrefix_of_canSatisfy hi (hgen e hmem) hsat)⟩
  have hmiss : (∀ k, cs.lowerBound i.name ≤ k → k < last → ¬ cs.Sat i now k) →
      cs.GenericNames → (∀ c ∈ i.name, c.isGeneric = true) → cs.FindSpec i now none := by
    intro hnone hgen hi e hmem
    by_contra hsat
    have hsat' : e.canSatisfy i now = true := by simpa using hsat
    obtain ⟨k, he, hfirst, hlt⟩ := hinside hgen hi e hmem hsat'
    exact hnone k hfirst hlt ⟨e, he, hsat'⟩
  by_cases hcs : i.selectors.childSelector = 1
  · obtain ⟨m, hm, hcases⟩ := findRightmostLoop_spec now last hq
      (cs.table.length + 1) last hle hlast (fun k e he hk hkr => (hrange k e he).mp ⟨hk, hkr⟩)
      (by omega)
    have hmatch : cs.findMatch i now = .ok (m, last) := by
      rw [findMatch_eq hend, if_pos hcs, findRightmost, hm]
      rfl
    rcases hcases with ⟨rfl, hnone⟩ | ⟨hmr, ⟨e, he, hsat⟩, hbest⟩
    · exact ⟨none, find_of_end hmatch, hmiss hnone⟩
    refine ⟨some e, find_of_match hmatch hmr.ne he, fun hgen hi => ?_⟩
    unfold FindSpec
    dsimp only
    rw [if_pos hcs]
    refine ⟨mem_of_getElem? he, hsat, ?_⟩
    rcases hbest hgen e he with ⟨hlonger, hall⟩ | ⟨hname, hall⟩
    · refine .inl ⟨hlonger, fun e' hmem hsat' hlonger' => ?_⟩
      obtain ⟨k, he', hfirst, hlt⟩ := hinside hgen hi e' hmem hsat'
      obtain ⟨hchild, hsame⟩ := hall k e' he' hlt hfirst hsat' hlonger'
      refine ⟨fun hgt => ?_, fun heq => compareDataWithData_ne_gt he he' (hsame heq)⟩
      rw [hgt] at hchild
      cases hchild
    · refine .inr ⟨hname, fun e' hmem hsat' => ?_⟩
      obtain ⟨k, he', hfirst, hlt⟩ := hinside hgen hi e' hmem hsat'
      obtain ⟨hname', hkm⟩ := hall k e' he' hlt hfirst hsat'
      exact ⟨hname', compareDataWithData_ne_gt he' he hkm⟩
  · obtain ⟨r, hr, hcases⟩ := find_leftmost now hcs hend hlast hle
    refine ⟨r, hr, fun hgen hi => ?_⟩
    rcases hcases with ⟨rfl, hnone⟩ | ⟨m, e, rfl, he, hfm, hml, hsat, hbefore⟩
    · exact hmiss hnone hgen hi
    unfold FindSpec
    dsimp only
    rw [if_neg hcs]
    refine ⟨mem_of_getElem? he, hsat, fun e' hmem hsat' => ?_⟩
    obtain ⟨k, he', hfirst, -⟩ := hinside hgen hi e' hmem hsat'
    refine compareDataWithData_ne_gt he he' ?_
    by_contra hless
    exact hbefore k hfirst (not_le.mp hless) ⟨e', he', hsat'⟩

/-- Data with the full name that is asked for comes before other matches. -/
theorem compareDataWithData_ne_gt_of_fullName (hgen : cs.GenericNames) {e e' : CsEntry}
    (hmem : e ∈ cs.table) (hmem' : e' ∈ cs.table) (hfull : e.data.fullName = i.name)
    (hsat : e'.canSatisfy i now = true) : compareDataWithData e.data e'.data ≠ .gt := by
  have hext := matchesPrefix_of_canSatisfy hsat
  have hlength : i.name.length = e.data.name.length + 1 := by
    rw [← hfull]
    simp [Data.fullName]
  have hvalues : Name.values i.name = Name.values e.data.name ++ [e.data.digest] := by
    rw [← hfull]
    simp [Data.fullName, Name.values, Component.implicitDigest]
  rw [compareDataWithData_eq]
  unfold Interest.matchesPrefix at hext
  split at hext
  · -- the same name and digest
    have hequals : Name.equals i.name e'.data.fullName = true := by
      cases hlast : i.name.getLast? with
      | none => rw [hlast] at hext; cases hext
      | some c =>
        rw [hlast] at hext
        exact (Bool.and_eq_true_iff.mp hext).2
    have hsame : Name.values e.data.name ++ [e.data.digest] =
        Name.values e'.data.name ++ [e'.data.digest] := by
      rw [← hvalues, Name.equals_iff.mp hequals]
      simp [Data.fullName, Name.values, Component.implicitDigest]
    obtain ⟨hname, hdigest⟩ := append_inj' hsame rfl
    have hpair : pairOf e.data = pairOf e'.data := by
      unfold pairOf
      rw [eq_map_generic (hgen e hmem), eq_map_generic (hgen e' hmem'), hname, (cons.inj hdigest).1]
    grind
  · -- a longer name
    have hpre := Name.isPrefixOf_iff.mp hext
    rw [hvalues] at hpre
    have hpre' : Name.isPrefixOf e.data.name e'.data.name = true :=
      Name.isPrefixOf_iff.mpr ((prefix_append _ _).trans hpre)
    obtain ⟨t, ht⟩ := isPrefix_of_isPrefixOf (hgen e hmem) (hgen e' hmem') hpre'
    have hlt : Name.compare e.data.name e'.data.name = .lt := by
      rw [← ht]
      refine ListLex.lt_append _ fun hnil => ?_
      simp_all
    unfold comparePairs pairOf
    rw [hlt]
    exact fun h => by cases h

/-- If Data names have no digests, and the Interest has none or ends with one and does not ask for
the rightmost child, then the lookup is right exactly if an entry with the full name of the Interest
satisfies it whenever any entry does. -/
theorem find_correct_iff (hgen : cs.GenericNames)
    (hi : (∀ c ∈ i.name, c.isGeneric = true) ∨ ∃ p c, i.name = p ++ [c] ∧
      c.isImplicitSha256Digest = true ∧ c ≠ .maxDigest ∧ i.selectors.childSelector ≠ 1) :
    (∃ r, cs.find i now = .ok r ∧ cs.FindSpec i now r) ↔
      (i.name.queryIsFullName = true → (∃ e ∈ cs.table, e.canSatisfy i now = true) →
        ∃ e ∈ cs.table, e.canSatisfy i now = true ∧ e.data.fullName = i.name) := by
  rcases hi with hi | ⟨p, c, hname, hc, hmax, hcs⟩
  · have hq := not_full_of_generic hi
    obtain ⟨r, hr, hspec⟩ := find_of_not_full cs now (fun c hc => .inl (hi c hc)) hq
    simp_all
  have hq : i.name.queryIsFullName = true := by rw [hname, queryIsFullName_append, hc]
  obtain ⟨last, hend, hlast, hle, hrange⟩ := findEnd_of_full cs p hc hmax
  rw [← hname] at hend hle hrange
  obtain ⟨r, hr, hcases⟩ := find_leftmost now hcs hend hlast hle
  constructor
  · rintro ⟨r', hr', hspec⟩ - ⟨e', hmem', hsat'⟩
    obtain rfl : r = r' := Except.ok.inj (hr.symm.trans hr')
    rcases hcases with ⟨rfl, -⟩ | ⟨m, e, rfl, he, hfm, hml, hsat, -⟩
    · rw [hspec e' hmem'] at hsat'
      cases hsat'
    · exact ⟨e, mem_of_getElem? he, hsat, (hrange m e he).mp ⟨hfm, hml⟩⟩
  intro hcond
  refine ⟨r, hr, ?_⟩
  rcases hcases with ⟨rfl, hnone⟩ | ⟨m, e, rfl, he, hfm, hml, hsat, -⟩
  · intro e' hmem'
    by_contra hsat'
    obtain ⟨e, hmem, hsat, hfull⟩ := hcond hq ⟨e', hmem', by simpa using hsat'⟩
    obtain ⟨k, he⟩ := mem_iff_getElem?.mp hmem
    obtain ⟨hfirst, hlt⟩ := (hrange k e he).mpr hfull
    exact hnone k hfirst hlt ⟨e, he, hsat⟩
  unfold FindSpec
  dsimp only
  rw [if_neg hcs]
  exact ⟨mem_of_getElem? he, hsat, fun e' hmem' hsat' =>
    compareDataWithData_ne_gt_of_fullName hgen (mem_of_getElem? he) hmem'
      ((hrange m e he).mp ⟨hfm, hml⟩) hsat'⟩

/-! ### A small store -/

namespace Small

/-- A Data whose digest repeats one byte; it is never stale. -/
def entry (name : Name) (b : UInt8) : CsEntry :=
  ⟨⟨name, replicate 32 b, length_replicate, -1, none, false⟩, false, none⟩

/-- An Interest without selectors but perhaps a child selector. -/
def interest (name : Name) (childSelector : ℤ) (mustBeFresh : Bool) : Interest :=
  ⟨name, { Selectors.none with childSelector, mustBeFresh }, [1, 2, 3, 4], 4000⟩

/-- The name `/A`. -/
def nameA : Name := [.generic [65]]

/-- The name `/A/B`. -/
def nameAB : Name := [.generic [65], .generic [66]]

/-- Two Data with the name `/A` and one with the name `/A/B`. -/
def store : Cs :=
  ⟨[entry nameA 1, entry nameA 2, entry nameAB 3], by decide +kernel⟩

/-- One Data whose name is a component with the bytes of a digest. -/
def disguised : Cs :=
  ⟨[entry [.generic (replicate 32 7)] 1], by decide +kernel⟩

/-- The second Data with the name `/A` has become stale. -/
def staleStore : Cs :=
  ⟨[entry nameA 1, { entry nameA 2 with staleTime := some 0 }], by decide +kernel⟩

end Small

open IcnDemo.Cs.Small

/-- The lookup for the full name of a stored Data is right. -/
theorem find_correct_digest :
    let i := interest (nameA ++ [.implicitDigest (replicate 32 2)]) 0 false
    (store.find i 5).toOption = some (some (entry nameA 2)) ∧
      ∃ r, store.find i 5 = .ok r ∧ store.FindSpec i 5 r := by
  intro i
  refine ⟨by decide +kernel, (find_correct_iff (by decide +kernel) (.inr ⟨nameA,
    .implicitDigest (replicate 32 2), rfl, by decide, by decide, by decide⟩)).mpr ?_⟩
  intro _ _
  exact ⟨entry nameA 2, by decide, by decide +kernel, by decide⟩

/-- An entry with an ordinary component that has the bytes of the digest satisfies the Interest but
is not found. -/
theorem find_misses_disguised :
    let i := interest [.implicitDigest (replicate 32 7)] 0 false
    disguised.GenericNames ∧
      (entry [.generic (replicate 32 7)] 1).canSatisfy i 5 = true ∧
      (disguised.find i 5).toOption = some none ∧
      ¬ ∃ r, disguised.find i 5 = .ok r ∧ disguised.FindSpec i 5 r := by
  intro i
  have hsat : (entry [.generic (replicate 32 7)] 1).canSatisfy i 5 = true := by
    decide +kernel
  have hmiss : (disguised.find i 5).toOption = some none := by decide +kernel
  refine ⟨by decide +kernel, hsat, hmiss, ?_⟩
  rintro ⟨r, hr, hspec⟩
  rw [hr] at hmiss
  obtain rfl : r = none := Option.some.inj hmiss
  rw [hspec _ mem_cons_self] at hsat
  cases hsat

/-! ### Safety -/

variable (now) in
/-- The search from the right with a full name. -/
theorem findRightmost_full {p : Name} {c : Component} {last k : ℕ} (hname : i.name = p ++ [c])
    (hrange : ∀ k e, cs.table[k]? = some e →
      (cs.lowerBound i.name ≤ k ∧ k < last ↔ e.data.fullName = i.name))
    (hlast : last ≤ cs.table.length) (he : cs.table[k]? = some e)
    (hfull : e.data.fullName = i.name) :
    let r := cs.findRightmost i now (cs.lowerBound i.name) last
    let safe := e.canSatisfy i now = true ∨ cs.lowerBound i.name ≤ cs.lowerBound p ∨
      ∃ j, j < cs.lowerBound i.name ∧ cs.Sat i now j
    (safe ∧ ∃ m, r = .ok m ∧ (m = last ∨ cs.Sat i now m)) ∨ ¬ safe ∧ ∃ fault, r = .error fault := by
  intro r safe
  obtain ⟨hfirst, hlt⟩ := (hrange k e he).mpr hfull
  -- the range has just this entry
  have honly : ∀ k', cs.lowerBound i.name ≤ k' → k' < last → k' = k := by
    grind [fullName_eq_iff, eq_of_pairOf_eq]
  obtain rfl : cs.lowerBound i.name = k := honly _ le_rfl (by omega)
  obtain rfl : last = cs.lowerBound i.name + 1 := by
    have := honly (last - 1) (by omega) (by omega)
    omega
  have hp : e.data.name = p := by
    rw [hname, fullName_eq_iff] at hfull
    exact congrArg Prod.fst hfull
  have hnot : ¬ e.data.name.length = i.name.length := by
    rw [hp, hname, length_append]
    simp
  have hext : e.data.name.getPrefix (i.name.length + 1) = p := by
    rw [hp, hname]
    exact take_of_length_le (by rw [length_append]; omega)
  have hleft : cs.lowerBound p ≤ cs.lowerBound i.name := by
    have := lowerBound_getPrefix_le he (i.name.length + 1)
    rwa [hext] at this
  obtain ⟨m, hm, hfm, hml, hbefore, hfound⟩ :=
    findLeftmost_spec cs i now (hleft.trans (Nat.le_succ _)) hlast
  unfold r findRightmost
  rw [findRightmostLoop_succ (Nat.succ_ne_self _) he, if_neg hnot, hext, hm]
  by_cases hend : m = cs.lowerBound i.name + 1
  · have hsat : ¬ e.canSatisfy i now = true := fun h =>
      hbefore (cs.lowerBound i.name) hleft (by omega) ⟨e, he, h⟩
    simp only [Except.bind, hend, ne_eq, not_true_eq_false, if_false]
    rcases hleft.eq_or_lt with heq | hless
    · refine .inl ⟨.inr (.inl heq.ge), cs.lowerBound i.name + 1, ?_, .inl rfl⟩
      obtain ⟨n, hn⟩ : ∃ n, cs.table.length = n + 1 := ⟨cs.table.length - 1, by omega⟩
      rw [heq, hn]
      unfold findRightmostLoop
      rw [if_pos rfl]
    rcases findRightmostLoop_below cs i now (cs.lowerBound i.name + 1) cs.table.length _ hless
      (by omega) (by omega) with ⟨m', hm', hlt', hsat'⟩ | ⟨hfault, hnone⟩
    · exact .inl ⟨.inr (.inr ⟨m', by omega, hsat'⟩), m', hm', .inr hsat'⟩
    · refine .inr ⟨?_, hfault⟩
      rintro (h | h | ⟨j, hj, hsatj⟩)
      · exact hsat h
      · omega
      · grind
  · simp only [Except.bind, hend, ne_eq, not_false_eq_true, if_true]
    have hsat : cs.Sat i now m := hfound (by omega)
    refine .inl ⟨?_, m, rfl, .inr hsat⟩
    grind [sat_iff]

/-- A lookup ends without an exception and inside the table exactly under the condition. -/
theorem find_safe_iff (hwf : i.name.WellFormed) :
    (∃ r, cs.find i now = .ok r) ↔ cs.FindSafe i now := by
  rcases hq : i.name.queryIsFullName with _ | _
  · obtain ⟨r, hr, -⟩ := find_of_not_full cs now hwf hq
    refine iff_of_true ⟨r, hr⟩ ⟨fun hlast => ?_, fun _ e _ hfull => ?_⟩
    · unfold Name.queryIsFullName at hq
      rw [hlast] at hq
      cases hq
    · rw [← hfull, Data.fullName, queryIsFullName_append] at hq
      simp [Component.isImplicitSha256Digest, Component.implicitDigest, e.data.digest_length] at hq
  obtain ⟨p, c, hname, hc⟩ := exists_of_queryIsFullName hq
  have hgetLast : i.name.getLast? = some c := by rw [hname]; simp
  by_cases hmax : c = .maxDigest
  · refine iff_of_false ?_ fun hsafe => hsafe.1 (by rw [hgetLast, hmax])
    have hnone : i.name.getSuccessor = none := by
      unfold Name.getSuccessor
      rw [hgetLast]
      simp [(Component.getSuccessor_eq_none_iff (.inr hc)).mpr hmax]
    have hend : cs.findEnd i.name = .error .exception := by
      unfold findEnd
      rw [if_pos (by rw [hname]; simp), hnone]
    rintro ⟨r, hr⟩
    unfold find findMatch at hr
    rw [hend] at hr
    cases hr
  obtain ⟨last, hend, hlast, hle, hrange⟩ := findEnd_of_full cs p hc hmax
  rw [← hname] at hend hle hrange
  have hnotmax : i.name.getLast? ≠ some .maxDigest := by
    rw [hgetLast]
    exact fun h => hmax (Option.some.inj h)
  by_cases hcs : i.selectors.childSelector = 1
  swap
  · obtain ⟨r, hr, -⟩ := find_leftmost now hcs hend hlast hle
    exact iff_of_true ⟨r, hr⟩ ⟨hnotmax, fun h => absurd h hcs⟩
  have hfound {m : ℕ} (hm : cs.findRightmost i now (cs.lowerBound i.name) last = .ok m)
      (hin : m = last ∨ cs.Sat i now m) : ∃ r, cs.find i now = .ok r := by
    have hmatch : cs.findMatch i now = .ok (m, last) := by
      rw [findMatch_eq hend, if_pos hcs, hm]
      rfl
    by_cases hsame : m = last
    · subst hsame
      exact ⟨none, find_of_end hmatch⟩
    · obtain ⟨e, he, -⟩ := hin.resolve_left hsame
      exact ⟨some e, find_of_match hmatch hsame he⟩
  by_cases hex : ∃ e ∈ cs.table, e.data.fullName = i.name
  · obtain ⟨e, hmem, hfull⟩ := hex
    obtain ⟨k, he⟩ := mem_iff_getElem?.mp hmem
    have honly : ∀ e' ∈ cs.table, e'.data.fullName = i.name → e' = e := by
      intro e' hmem' hfull'
      obtain ⟨k', he'⟩ := mem_iff_getElem?.mp hmem'
      grind [fullName_eq_iff, eq_of_pairOf_eq]
    have hrescue : (∃ j, j < cs.lowerBound i.name ∧ cs.Sat i now j) ↔
        ∃ e' ∈ cs.table, below i.name e' = true ∧ e'.canSatisfy i now = true := by
      constructor
      · rintro ⟨j, hj, e', he', hsat⟩
        exact ⟨e', mem_of_getElem? he', (lt_lowerBound_iff he').mp hj, hsat⟩
      · rintro ⟨e', hmem', hbelow, hsat⟩
        obtain ⟨j, he'⟩ := mem_iff_getElem?.mp hmem'
        exact ⟨j, (lt_lowerBound_iff he').mpr hbelow, e', he', hsat⟩
    have hdrop : i.name.dropLast = p := by rw [hname, dropLast_concat]
    have hsearch := findRightmost_full now hname hrange hlast he hfull
    rw [hrescue, lowerBound_le_iff, ← hdrop] at hsearch
    rcases hsearch with ⟨hany, m, hm, hin⟩ | ⟨hnone, fault, hfault⟩
    · refine iff_of_true (hfound hm hin) ⟨hnotmax, fun _ e' hmem' hfull' => ?_⟩
      rw [honly e' hmem' hfull']
      exact hany
    · refine iff_of_false ?_ fun hsafe => hnone (hsafe.2 hcs e hmem hfull)
      rintro ⟨r, hr⟩
      rw [find, findMatch_eq hend, if_pos hcs, hfault] at hr
      cases hr
  · -- nothing to search
    refine iff_of_true (hfound (m := last) ?_ (.inl rfl))
      ⟨hnotmax, fun _ e hmem hfull => absurd ⟨e, hmem, hfull⟩ hex⟩
    have hempty : last = cs.lowerBound i.name := by
      by_contra hne
      obtain ⟨e, he⟩ : ∃ e, cs.table[cs.lowerBound i.name]? = some e :=
        exists_entry (by omega)
      exact hex ⟨e, mem_of_getElem? he, (hrange _ e he).mp ⟨le_rfl, by omega⟩⟩
    unfold findRightmost findRightmostLoop
    rw [if_pos hempty]

/-- A rightmost lookup for the full name of the smallest Data with its name is safe, although this
Data has become stale. -/
theorem find_safe_smallest :
    let cs : Cs := ⟨[{ entry nameA 1 with staleTime := some 0 }], by decide +kernel⟩
    let i := interest (nameA ++ [.implicitDigest (replicate 32 1)]) 1 true
    (cs.find i 5).toOption = some none ∧ ∃ r, cs.find i 5 = .ok r := by
  intro cs i
  refine ⟨by decide +kernel, (find_safe_iff (by decide +kernel)).mpr ⟨by decide, fun _ e _ _ =>
    .inr (.inl ?_)⟩⟩
  decide +kernel

/-- What ended a lookup. -/
def faultOf : Except CsFault (Option CsEntry) → Option CsFault
  | .ok _ => none
  | .error fault => some fault

/-- A lookup for the greatest digest throws.  A rightmost lookup for the full name of a stale Data
moves before the first entry, if there is another Data with the same name and a smaller digest. -/
theorem find_unsafe :
    faultOf (store.find (interest (nameA ++ [.maxDigest]) 0 false) 5) =
        some .exception ∧
      faultOf (staleStore.find (interest
          (nameA ++ [.implicitDigest (replicate 32 2)]) 1 true) 5) =
        some .beforeBegin := by
  exact ⟨by decide +kernel, by decide +kernel⟩

end IcnDemo.Cs
