import IcnDemo.Validator.Defs

/-!
# The table of timestamps

`m_lastTimestamp` holds the newest accepted timestamp of each key.  When a key is added to a full
table, `cleanOldKeys` first removes the entries that are too old, and then, if that was of no use,
an entry with the least timestamp.
-/

namespace IcnDemo

open List Security

/-- A name is equal to itself. -/
theorem Name.compare_self (n : Name) : n.compare n = .eq :=
  Std.LawfulEqCmp.compare_eq_iff_eq.mpr rfl

namespace Validator

namespace LastTimestampMap

variable {m : LastTimestampMap}

@[simp] theorem find_nil (key : Name) : find [] key = none := rfl

/-- The timestamp of a key, entry by entry. -/
theorem find_cons (e : Name × ℤ) (m : LastTimestampMap) (key : Name) :
    find (e :: m) key = if e.1 = key then some e.2 else find m key := by
  unfold find
  by_cases he : e.1 = key
  · simp [he]
  · simp [he]

/-- The timestamps after an assignment. -/
theorem find_assign (key : Name) (time : ℤ) (m : LastTimestampMap) (key' : Name) :
    (m.assign key time).find key' = if key = key' then some time else m.find key' := by
  induction m with
  | nil => simp [assign, find_cons]
  | cons e m ih =>
    unfold assign
    cases hcmp : key.compare e.1 with
    | lt => simp only [find_cons]
    | eq | gt => grind [find_cons]

/-- The order of the map. -/
def Sorted (m : LastTimestampMap) : Prop :=
  m.Pairwise fun a b => a.1.compare b.1 = .lt

variable {key : Name}

/-- The entries after an assignment. -/
theorem mem_assign {time : ℤ} {e : Name × ℤ} (h : e ∈ m.assign key time) :
    e = (key, time) ∨ e ∈ m := by
  induction m with
  | nil => exact .inl (mem_singleton.mp h)
  | cons x m ih => grind [assign]

/-- An assignment keeps the order. -/
theorem Sorted.assign (h : Sorted m) (key : Name) (time : ℤ) : Sorted (m.assign key time) := by
  induction m with
  | nil => exact pairwise_singleton _ _
  | cons e m ih =>
    obtain ⟨hhead, htail⟩ := pairwise_cons.mp h
    unfold LastTimestampMap.assign
    cases hcmp : key.compare e.1 with
    | lt =>
      refine pairwise_cons.mpr ⟨fun x hx => ?_, h⟩
      rcases mem_cons.mp hx with rfl | hx
      · exact hcmp
      · exact Std.TransCmp.lt_trans hcmp (hhead x hx)
    | eq =>
      have heq : key = e.1 := Std.LawfulEqCmp.compare_eq_iff_eq.mp hcmp
      refine pairwise_cons.mpr ⟨fun x hx => ?_, htail⟩
      rw [heq]
      exact hhead x hx
    | gt =>
      refine pairwise_cons.mpr ⟨fun x hx => ?_, ih htail⟩
      rcases mem_assign hx with rfl | hx
      · exact Std.OrientedCmp.gt_iff_lt.mp hcmp
      · exact hhead x hx

/-- A new key is one entry more. -/
theorem length_assign_of_find_eq_none (h : m.find key = none) (time : ℤ) :
    (m.assign key time).length = m.length + 1 := by
  induction m with
  | nil => rfl
  | cons e m ih => grind [find_cons, assign]

/-- A known key is no entry more. -/
theorem length_assign_of_find {last : ℤ} (h : m.find key = some last) (hm : Sorted m)
    (time : ℤ) : (m.assign key time).length = m.length := by
  induction m with
  | nil => cases h
  | cons e m ih =>
    obtain ⟨hhead, htail⟩ := pairwise_cons.mp hm
    rw [find_cons] at h
    unfold assign
    cases hcmp : key.compare e.1 with
    | lt =>
      -- the key would have to stand behind a greater one
      exfalso
      by_cases he : e.1 = key
      · rw [he, Name.compare_self] at hcmp
        cases hcmp
      rw [if_neg he] at h
      obtain ⟨x, hx, -⟩ := Option.map_eq_some_iff.mp h
      have hmem := mem_of_find?_eq_some hx
      have hkey : x.1 = key := by simpa using find?_some hx
      have hlt := Std.TransCmp.lt_trans hcmp (hhead x hmem)
      rw [hkey, Name.compare_self] at hlt
      cases hlt
    | eq => rfl
    | gt =>
      have he : e.1 ≠ key := by grind
      rw [if_neg he] at h
      rw [length_cons, ih h htail, length_cons]

/-- The timestamp of a key is that of its entry. -/
theorem Sorted.find_eq_some_iff (h : Sorted m) {v : ℤ} : m.find key = some v ↔ (key, v) ∈ m := by
  induction m with
  | nil => simp
  | cons e m ih =>
    obtain ⟨hhead, htail⟩ := pairwise_cons.mp h
    rw [find_cons, mem_cons]
    by_cases he : e.1 = key
    · grind
    · rw [if_neg he, ih htail]
      grind

/-- Fewer entries are in order. -/
theorem Sorted.of_sublist {m' : LastTimestampMap} (h : Sorted m) (hsub : m'.Sublist m) :
    Sorted m' :=
  h.sublist hsub

/-- A part of the table has a key as the table has it, or not at all. -/
theorem Sorted.find_of_sublist {m' : LastTimestampMap} (h : Sorted m) (hsub : m'.Sublist m)
    (key : Name) : m'.find key = m.find key ∨ m'.find key = none := by
  cases hfind : m'.find key with
  | none => exact .inr rfl
  | some v =>
    have hmem := (h.of_sublist hsub).find_eq_some_iff.mp hfind
    exact .inl (h.find_eq_some_iff.mpr (hsub.subset hmem)).symm

end LastTimestampMap

open LastTimestampMap

/-! ### Cleaning -/

variable {P : Params} {now : ℤ} {m : LastTimestampMap}

/-- Cleaning removes an entry that is expired, or, when none is, one of the oldest. -/
def Removable (P : Params) (now : ℤ) (m : LastTimestampMap) (e : Name × ℤ) : Prop :=
  Expired P now e ∨ ∀ x ∈ m, ¬ Expired P now x ∧ e.2 ≤ x.2

/-- The oldest key has the least timestamp. -/
theorem oldestKey_spec (hm : ∀ x ∈ m, ¬ Expired P now x) (first : Name × ℤ) :
    (oldestKey P now first m = first ∨ oldestKey P now first m ∈ m) ∧
      (oldestKey P now first m).2 ≤ first.2 ∧ ∀ x ∈ m, (oldestKey P now first m).2 ≤ x.2 := by
  induction m generalizing first with
  | nil => simp [oldestKey]
  | cons e m ih =>
    have hm' : ∀ x ∈ m, ¬ Expired P now x := fun x hx => hm x (mem_cons_of_mem e hx)
    have he : ¬ Expired P now e := hm e mem_cons_self
    unfold oldestKey
    rw [if_neg he]
    by_cases hlt : e.2 < first.2
    · rw [if_pos hlt]
      obtain ⟨hmem, hle, hall⟩ := ih hm' e
      grind
    · rw [if_neg hlt]
      obtain ⟨hmem, hle, hall⟩ := ih hm' first
      grind

/-- What is cleaned from a full table. -/
theorem cleanOldKeys_of_full {first : Name × ℤ} {rest : LastTimestampMap} (hm : m = first :: rest)
    (hfull : P.maxTrackedKeys ≤ m.length) :
    cleanOldKeys P now m = if (m.filter fun e => ¬ Expired P now e).length < P.maxTrackedKeys then
        some (m.filter fun e => ¬ Expired P now e)
      else if oldestKey P now first m ∈ m.filter fun e => ¬ Expired P now e then
        some ((m.filter fun e => ¬ Expired P now e).erase (oldestKey P now first m))
      else none := by
  subst hm
  unfold cleanOldKeys
  rw [if_neg (not_lt.mpr hfull)]

/-- A table that is not over its bound is cleaned without harm unless no key may be tracked; then
there is room for a key, and what is gone was expired, or the oldest of a full table. -/
theorem cleanOldKeys_spec (now : ℤ) (hlen : m.length ≤ P.maxTrackedKeys)
    (hmax : P.maxTrackedKeys ≠ 0) :
    ∃ m', cleanOldKeys P now m = some m' ∧ m'.Sublist m ∧ m'.length < P.maxTrackedKeys ∧
      ∀ e ∈ m, e ∉ m' → P.maxTrackedKeys ≤ m.length ∧ Removable P now m e := by
  by_cases hroom : m.length < P.maxTrackedKeys
  · simp_all [cleanOldKeys]
  have hfull : P.maxTrackedKeys ≤ m.length := not_lt.mp hroom
  rcases hm : m with _ | ⟨first, rest⟩
  · rw [hm] at hfull
    exact absurd (Nat.le_zero.mp hfull) hmax
  rw [← hm, cleanOldKeys_of_full hm hfull]
  let kept := m.filter fun e => ¬ Expired P now e
  have hkept : kept.Sublist m := filter_sublist
  by_cases hsome : kept.length < P.maxTrackedKeys
  · refine ⟨kept, if_pos hsome, hkept, hsome, fun e he hnot => ⟨hfull, .inl ?_⟩⟩
    by_contra hexp
    exact hnot (mem_filter.mpr ⟨he, by simpa using hexp⟩)
  -- nothing was expired, so the oldest entry is still there
  have hall : kept = m := hkept.eq_of_length (by
    have := hkept.length_le
    omega)
  have hnone : ∀ x ∈ m, ¬ Expired P now x := by grind
  obtain ⟨hmem, -, hleast⟩ := oldestKey_spec hnone first
  have holdest : oldestKey P now first m ∈ m := by
    rcases hmem with h | h
    · rw [h, hm]
      exact mem_cons_self
    · exact h
  have hin : oldestKey P now first m ∈ kept := by rwa [hall]
  refine ⟨kept.erase (oldestKey P now first m), ?_, ?_, ?_, ?_⟩
  · simp only [kept] at hsome hin ⊢
    rw [if_neg hsome, if_pos hin]
  · exact erase_sublist.trans hkept
  · have hlength := length_erase_of_mem hin
    have hle := hkept.length_le
    omega
  · intro e he hnot
    have heq : e = oldestKey P now first m := by
      by_contra hne
      exact hnot ((mem_erase_of_ne hne).mpr (hall ▸ he))
    refine ⟨hfull, .inr fun x hx => ⟨hnone x hx, ?_⟩⟩
    rw [heq]
    exact hleast x hx

/-- A table for no keys cannot be cleaned. -/
theorem cleanOldKeys_eq_none (hlen : m.length ≤ P.maxTrackedKeys) (hmax : P.maxTrackedKeys = 0) :
    cleanOldKeys P now m = none := by
  have hm : m = [] := length_eq_zero_iff.mp (by omega)
  subst hm
  simp [cleanOldKeys, hmax]

/-! ### The check of a timestamp -/

/-- The table is a map, and not larger than it may be. -/
structure TableOk (P : Params) (m : LastTimestampMap) : Prop where
  sorted : m.Sorted
  bounded : m.length ≤ P.maxTrackedKeys

/-- The empty table is in order. -/
theorem tableOk_nil : TableOk P [] :=
  ⟨Pairwise.nil, Nat.zero_le _⟩

/-- What an accepted timestamp does to the table. -/
structure Stamped (P : Params) (now : ℤ) (interest keyName : Name) (m m' : LastTimestampMap)
    (time : ℤ) : Prop where
  decoded : interestTime interest = some time
  /-- A known key has an older timestamp, a new one is within the grace interval. -/
  fresh : (∃ last, m.find keyName = some last ∧ last < time) ∨
    m.find keyName = none ∧ now - P.grace ≤ time ∧ time ≤ now + P.grace
  found : m'.find keyName = some time
  /-- Other keys keep their timestamps, unless they were removed from a full table. -/
  others : ∀ key v, key ≠ keyName → m.find key = some v → m'.find key = some v ∨
      m'.find key = none ∧ P.maxTrackedKeys ≤ m.length ∧ Removable P now m (key, v)
  added : ∀ key, key ≠ keyName → m.find key = none → m'.find key = none
  tableOk : TableOk P m'

/-- An accepted timestamp is kept. -/
theorem stamped_of_accepted (hm : TableOk P m) {interest keyName : Name} {m' : LastTimestampMap}
    (h : checkTimestamp P now interest keyName m = .accepted m') :
    ∃ time, Stamped P now interest keyName m m' time := by
  unfold checkTimestamp at h
  split at h
  · cases h
  rename_i time htime
  refine ⟨time, ?_⟩
  split at h
  · rename_i hnone
    split at h
    · rename_i hgrace
      split at h
      · cases h
      rename_i kept hclean
      cases h
      have hmax : P.maxTrackedKeys ≠ 0 := by grind [cleanOldKeys_eq_none, hm.bounded]
      obtain ⟨m₁, hm₁, hsub, hlen, hgone⟩ := cleanOldKeys_spec now hm.bounded hmax
      rw [hclean] at hm₁
      cases hm₁
      have hsorted := hm.sorted.of_sublist hsub
      have hnew : ∀ key, m.find key = none → kept.find key = none := fun key hnone =>
        (hm.sorted.find_of_sublist hsub key).elim (·.trans hnone) id
      refine ⟨htime, .inr ⟨hnone, hgrace⟩, ?_, fun key v hne hv => ?_, fun key hne hv => ?_,
        hsorted.assign keyName time, ?_⟩
      · rw [find_assign, if_pos rfl]
      · rw [find_assign, if_neg hne.symm]
        rcases hm.sorted.find_of_sublist hsub key with hsame | hremoved
        · exact .inl (hsame.trans hv)
        refine .inr ⟨hremoved, hgone _ (hm.sorted.find_eq_some_iff.mp hv) fun hkept => ?_⟩
        rw [hsorted.find_eq_some_iff.mpr hkept] at hremoved
        cases hremoved
      · rw [find_assign, if_neg hne.symm, hnew key hv]
      · rw [length_assign_of_find_eq_none (hnew keyName hnone)]
        exact hlen
    · cases h
  · rename_i last hlast
    split at h
    · cases h
    rename_i hlt
    cases h
    refine ⟨htime, .inl ⟨last, hlast, not_le.mp hlt⟩, ?_, fun key v hne hv => .inl ?_,
      fun key hne hv => ?_, hm.sorted.assign keyName time, ?_⟩
    · rw [find_assign, if_pos rfl]
    · rw [find_assign, if_neg hne.symm, hv]
    · rw [find_assign, if_neg hne.symm, hv]
    · rw [length_assign_of_find hlast hm.sorted]
      exact hm.bounded

/-- The iterator of `cleanOldKeys` is invalid exactly when a new key is to be added to a table that
tracks nothing. -/
theorem undefined_iff (now : ℤ) (hm : TableOk P m) (interest keyName : Name) :
    checkTimestamp P now interest keyName m = .undefined ↔
      (∃ time, interestTime interest = some time ∧ now - P.grace ≤ time ∧ time ≤ now + P.grace) ∧
        m.find keyName = none ∧ P.maxTrackedKeys = 0 := by
  unfold checkTimestamp
  rcases htime : interestTime interest with _ | time
  · simp
  cases hfind : m.find keyName with
  | some last => grind
  | none =>
    simp only [Option.some.injEq, exists_eq_left', true_and]
    by_cases hgrace : now - P.grace ≤ time ∧ time ≤ now + P.grace
    · rw [if_pos hgrace]
      by_cases hmax : P.maxTrackedKeys = 0
      · rw [cleanOldKeys_eq_none hm.bounded hmax]
        simp [hgrace, hmax]
      · obtain ⟨m', hm', -⟩ := cleanOldKeys_spec now hm.bounded hmax
        rw [hm']
        simp [hmax]
    · grind

end Validator

end IcnDemo
