import IcnDemo.Cs.Defs

/-!
# The range of a query

For a name without a final digest, `Cs::find` searches exactly the entries whose names extend it;
for a full name it searches exactly the entry with this full name.  The order of the table is that
of pairs of a name and a digest, and a full name is such a pair, too.
-/

namespace IcnDemo.Cs

open List Std.OrientedCmp

/-! ### Pairs of a name and a digest -/

/-- The order of the table. -/
def comparePairs (x y : Name × Component) : Ordering :=
  (Name.compare x.1 y.1).then (Component.compare x.2 y.2)

instance : Std.TransCmp comparePairs := by
  have hfirst : Std.TransCmp fun x y : Name × Component => Name.compare x.1 y.1 :=
    { eq_swap := Std.OrientedCmp.eq_swap, isLE_trans := Std.TransCmp.isLE_trans }
  have hsecond : Std.TransCmp fun x y : Name × Component => Component.compare x.2 y.2 :=
    { eq_swap := Std.OrientedCmp.eq_swap, isLE_trans := Std.TransCmp.isLE_trans }
  exact inferInstanceAs (Std.TransCmp (compareLex (fun x y : Name × Component =>
    Name.compare x.1 y.1) fun x y => Component.compare x.2 y.2))

instance : Std.LawfulEqCmp comparePairs where
  eq_of_compare := by
    intro x y h
    obtain ⟨h₁, h₂⟩ := Ordering.then_eq_eq.mp h
    exact Prod.ext (Std.LawfulEqCmp.compare_eq_iff_eq.mp h₁)
      (Std.LawfulEqCmp.compare_eq_iff_eq.mp h₂)

/-- The pair of a Data. -/
def pairOf (d : Data) : Name × Component :=
  (d.name, .implicitDigest d.digest)

variable {e e' : CsEntry} {q : Name} {c : Component} {k k' : ℕ}

/-- The full name of a Data is its name with its digest behind. -/
theorem fullName_eq_iff {d : Data} {p : Name} : d.fullName = p ++ [c] ↔ pairOf d = (p, c) := by
  unfold Data.fullName pairOf
  simp

/-- Data is compared by name and digest. -/
theorem compareDataWithData_eq (d d' : Data) :
    compareDataWithData d d' = comparePairs (pairOf d) (pairOf d') := rfl

/-! ### Queries -/

/-- A query is a full name if it ends with a digest. -/
theorem queryIsFullName_append (p : Name) (c : Component) :
    Name.queryIsFullName (p ++ [c]) = c.isImplicitSha256Digest := by
  simp [Name.queryIsFullName]

/-- A full name is a name with a digest behind. -/
theorem exists_of_queryIsFullName (h : q.queryIsFullName = true) :
    ∃ p c, q = p ++ [c] ∧ c.isImplicitSha256Digest = true := by
  rcases eq_nil_or_concat q with rfl | ⟨p, c, rfl⟩
  · cases h
  · grind [queryIsFullName_append]

/-- What is below a full name. -/
theorem below_append {p : Name} (hc : c.isImplicitSha256Digest = true) (e : CsEntry) :
    below (p ++ [c]) e = true ↔ comparePairs (p, c) (pairOf e.data) = .gt := by
  unfold below Name.compareQueryWithData
  rw [queryIsFullName_append, if_pos hc, dropLast_concat, getLastD_concat, beq_iff_eq]
  rfl

/-- What is below another name. -/
theorem below_iff_of_not_full (hq : q.queryIsFullName = false) (e : CsEntry) :
    below q e = true ↔ Name.compare q e.data.name = .gt := by
  unfold below Name.compareQueryWithData
  rw [if_neg (by rw [hq]; exact Bool.false_ne_true), beq_iff_eq]
  cases Name.compare q e.data.name <;> decide

variable (cs : Cs)

/-- The entries below a query come first. -/
theorem cut_below (q : Name) : SortedTable.Cut (below q) cs.table := by
  refine cs.sorted.imp fun {e e'} hlt hbelow => ?_
  rw [compareDataWithData_eq] at hlt
  cases hq : q.queryIsFullName with
  | true =>
    obtain ⟨p, c, rfl, hc⟩ := exists_of_queryIsFullName hq
    rw [below_append hc] at hbelow ⊢
    exact Std.TransCmp.gt_trans hbelow (gt_of_lt hlt)
  | false =>
    rw [below_iff_of_not_full hq] at hbelow ⊢
    have hle : (Name.compare e.data.name e'.data.name).isLE = true := by
      have hpair : (Name.compare e.data.name e'.data.name).then _ = .lt := hlt
      rcases Ordering.then_eq_lt.mp hpair with h | ⟨h, -⟩ <;> rw [h] <;> rfl
    exact gt_of_lt
      (Std.TransCmp.lt_of_isLE_of_lt hle (lt_of_gt hbelow))

variable {cs}

/-- The lower bound is behind the entries below the query. -/
theorem lt_lowerBound_iff {k : ℕ} {e : CsEntry} (he : cs.table[k]? = some e) :
    k < cs.lowerBound q ↔ below q e = true := by
  obtain ⟨hk, rfl⟩ := List.getElem?_eq_some_iff.mp he
  exact SortedTable.lt_lowerBound_iff (cs.cut_below q) hk

/-- The lower bound is in the table. -/
theorem lowerBound_le_length (q : Name) : cs.lowerBound q ≤ cs.table.length :=
  SortedTable.lowerBound_le_length _ _

/-- The lower bounds are ordered as what is below them. -/
theorem lowerBound_le_of_below {q q' : Name}
    (h : ∀ e ∈ cs.table, below q e = true → below q' e = true) :
    cs.lowerBound q ≤ cs.lowerBound q' := by
  by_contra hless
  have hk := (not_le.mp hless).trans_le (lowerBound_le_length q)
  have he : cs.table[cs.lowerBound q']? = some cs.table[cs.lowerBound q'] :=
    getElem?_eq_getElem hk
  have hbelow := h _ (getElem_mem hk) ((lt_lowerBound_iff he).mp (not_le.mp hless))
  exact lt_irrefl _ ((lt_lowerBound_iff he).mpr hbelow)

/-- The lower bounds are ordered exactly as what is below them. -/
theorem lowerBound_le_iff {q q' : Name} : cs.lowerBound q ≤ cs.lowerBound q' ↔
    ∀ e ∈ cs.table, below q e = true → below q' e = true := by
  refine ⟨fun h e hmem hbelow => ?_, lowerBound_le_of_below⟩
  obtain ⟨k, he⟩ := mem_iff_getElem?.mp hmem
  exact (lt_lowerBound_iff he).mp (((lt_lowerBound_iff he).mpr hbelow).trans_le h)

section

variable (he : cs.table[k]? = some e) (he' : cs.table[k']? = some e')

include he he'

/-- The entries are in strict order of name and digest. -/
theorem comparePairs_of_lt (h : k < k') : comparePairs (pairOf e.data) (pairOf e'.data) = .lt := by
  obtain ⟨hk, rfl⟩ := List.getElem?_eq_some_iff.mp he
  obtain ⟨hk', rfl⟩ := List.getElem?_eq_some_iff.mp he'
  exact pairwise_iff_getElem.mp cs.sorted k k' hk hk' h

/-- The entries are in the order of their names. -/
theorem name_isLE_of_le (h : k ≤ k') : (Name.compare e.data.name e'.data.name).isLE = true := by
  rcases h.eq_or_lt with rfl | hlt
  · obtain rfl : e = e' := Option.some.inj (he.symm.trans he')
    have hself : Name.compare e.data.name e.data.name = .eq := Std.ReflCmp.compare_self
    rw [hself]
    rfl
  · have hpair : (Name.compare e.data.name e'.data.name).then _ = .lt :=
      comparePairs_of_lt he he' hlt
    rcases Ordering.then_eq_lt.mp hpair with h | ⟨h, -⟩ <;> rw [h] <;> rfl

/-- No two entries have the same name and digest. -/
theorem eq_of_pairOf_eq (h : pairOf e.data = pairOf e'.data) : k = k' := by
  have hself : comparePairs (pairOf e'.data) (pairOf e'.data) = .eq := Std.ReflCmp.compare_self
  grind [comparePairs_of_lt]

end

/-! ### The range that is searched -/

/-- The successor of a name changes its last component. -/
theorem exists_getSuccessor (p : Name) (hc : c.WellFormed) (hmax : c ≠ .maxDigest) :
    ∃ s, c.getSuccessor = some s ∧ Name.getSuccessor (p ++ [c]) = some (p ++ [s]) ∧
      s.isImplicitSha256Digest = c.isImplicitSha256Digest := by
  obtain ⟨s, hs⟩ : ∃ s, c.getSuccessor = some s := by
    rw [← Option.ne_none_iff_exists']
    exact fun hnone => hmax ((Component.getSuccessor_eq_none_iff hc).mp hnone)
  obtain ⟨hwf, hval⟩ := Component.getSuccessor_eq_some_iff.mp hs
  have htype : s.type = c.type := by rw [hval]
  refine ⟨s, hs, by simp [Name.getSuccessor, hs], ?_⟩
  grind [Component.WellFormed, Component.isGeneric, Component.isImplicitSha256Digest,
    Tlv.nameComponent, Tlv.implicitSha256DigestComponent]

variable (cs) in
/-- The range of a name has the entries that begin with it. -/
theorem findEnd_of_not_full (hwf : q.WellFormed) (hq : q.queryIsFullName = false) :
    ∃ last, cs.findEnd q = .ok last ∧ last ≤ cs.table.length ∧ cs.lowerBound q ≤ last ∧
      ∀ k e, cs.table[k]? = some e → (cs.lowerBound q ≤ k ∧ k < last ↔ q <+: e.data.name) := by
  have hfirst : ∀ k e, cs.table[k]? = some e →
      (cs.lowerBound q ≤ k ↔ (Name.compare q e.data.name).isLE = true) := by
    intro k e he
    rw [← not_lt, lt_lowerBound_iff he, below_iff_of_not_full hq]
    cases Name.compare q e.data.name <;> decide
  rcases eq_nil_or_concat q with rfl | ⟨p, c, hqp⟩
  · refine ⟨cs.table.length, rfl, le_rfl, lowerBound_le_length _, fun k e he => ?_⟩
    obtain ⟨hk, -⟩ := List.getElem?_eq_some_iff.mp he
    rw [hfirst k e he]
    exact iff_of_true ⟨ListLex.isLE_of_isPrefix nil_prefix, hk⟩ nil_prefix
  rw [concat_eq_append] at hqp
  have hne : q ≠ [] := by rw [hqp]; exact concat_ne_nil c p
  have hc : c.WellFormed := hwf c (by rw [hqp]; exact mem_append_right _ mem_cons_self)
  have hcfull : c.isImplicitSha256Digest = false := by
    rw [hqp, queryIsFullName_append] at hq
    exact hq
  obtain ⟨s, -, hsuccessor, hsdigest⟩ := exists_getSuccessor p hc (by rintro rfl; cases hcfull)
  rw [← hqp] at hsuccessor
  have hsfull : Name.queryIsFullName (p ++ [s]) = false := by
    rw [queryIsFullName_append, hsdigest, hcfull]
  refine ⟨cs.lowerBound (p ++ [s]), ?_, lowerBound_le_length _,
    lowerBound_le_of_below fun e _ hbelow => ?_, fun k e he => ?_⟩
  · grind [findEnd]
  · rw [below_iff_of_not_full hq] at hbelow
    rw [below_iff_of_not_full hsfull]
    have hlt := ((Name.isPrefix_iff_between hne hsuccessor q).mp prefix_rfl).2
    exact Std.TransCmp.gt_trans (gt_of_lt hlt) hbelow
  · rw [hfirst k e he, lt_lowerBound_iff he, below_iff_of_not_full hsfull,
      Name.isPrefix_iff_between hne hsuccessor]
    exact and_congr Iff.rfl ⟨lt_of_gt, gt_of_lt⟩

variable (cs) in
/-- The range of a full name has the entries with this full name. -/
theorem findEnd_of_full (p : Name) (hc : c.isImplicitSha256Digest = true) (hmax : c ≠ .maxDigest) :
    ∃ last, cs.findEnd (p ++ [c]) = .ok last ∧ last ≤ cs.table.length ∧
      cs.lowerBound (p ++ [c]) ≤ last ∧
      ∀ k e, cs.table[k]? = some e →
        (cs.lowerBound (p ++ [c]) ≤ k ∧ k < last ↔ e.data.fullName = p ++ [c]) := by
  obtain ⟨s, hs, hsuccessor, hsdigest⟩ := exists_getSuccessor p (.inr hc) hmax
  rw [hc] at hsdigest
  obtain ⟨hlt, hgap⟩ := Component.getSuccessor_next hs
  have hself : Name.compare p p = .eq := Std.ReflCmp.compare_self
  have hpairs : comparePairs (p, s) (p, c) = .gt := by
    unfold comparePairs
    rw [hself, gt_of_lt hlt]
    rfl
  refine ⟨cs.lowerBound (p ++ [s]), ?_, lowerBound_le_length _,
    lowerBound_le_of_below fun e _ hbelow => ?_, fun k e he => ?_⟩
  · grind [findEnd]
  · rw [below_append hc] at hbelow
    rw [below_append hsdigest]
    exact Std.TransCmp.gt_trans hpairs hbelow
  · rw [← not_lt, lt_lowerBound_iff he, lt_lowerBound_iff he, below_append hc,
      below_append hsdigest]
    rw [fullName_eq_iff]
    generalize pairOf e.data = x
    constructor
    · rintro ⟨hle, hgt⟩
      obtain ⟨n, g⟩ := x
      simp only [comparePairs, Ordering.then_eq_gt, not_or, not_and] at hle hgt
      obtain ⟨hn, hgt⟩ := hgt.resolve_left hle.1
      have hcg : (c.compare g).isLE = true := Ordering.isLE_iff_ne_gt.mpr (hle.2 hn)
      rw [Std.LawfulEqCmp.compare_eq_iff_eq.mp hn, hgap g hcg (lt_of_gt hgt)]
    · grind

end IcnDemo.Cs
