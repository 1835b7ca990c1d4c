import IcnDemo.Cs.Range

/-!
# Searching a range

What the searches over a range of iterators return, and when they stay inside the table.  The search
to the left of the range, which happens when the right end passes the first iterator, ends well only
if there is a satisfying entry down there.
-/

namespace IcnDemo.Cs

variable {cs : Cs} {i : Interest} {now : ℤ}

/-- The entry at a position satisfies the Interest. -/
def Sat (cs : Cs) (i : Interest) (now : ℤ) (k : ℕ) : Prop :=
  ∃ e, cs.table[k]? = some e ∧ e.canSatisfy i now = true

variable {first last m : ℕ} {e : CsEntry} {k : ℕ}

/-- A place can satisfy the Interest if its entry can. -/
theorem sat_iff (he : cs.table[k]? = some e) : cs.Sat i now k ↔ e.canSatisfy i now = true := by
  constructor
  · rintro ⟨e', he', hsat⟩
    rwa [Option.some.inj (he.symm.trans he')]
  · exact fun hsat => ⟨e, he, hsat⟩

/-- There is an entry at each place. -/
theorem exists_entry (hk : k < cs.table.length) : ∃ e, cs.table[k]? = some e :=
  ⟨_, List.getElem?_eq_getElem hk⟩

/-! ### From left to right -/

/-- `find_if` stops at the first entry with the property. -/
theorem findIf_spec (p : CsEntry → Bool) (last : ℕ) (es : List CsEntry) :
    ∀ first, first ≤ last → last ≤ first + es.length →
      ∃ m, findIf p last es first = .ok m ∧ first ≤ m ∧ m ≤ last ∧
        (∀ j e, es[j]? = some e → first + j < m → p e = false) ∧
        (m < last → ∃ e, es[m - first]? = some e ∧ p e = true) := by
  induction es with
  | nil =>
    intro first hle hlen
    obtain rfl : first = last := by simp at hlen; omega
    simp_all [findIf]
  | cons e es ih =>
    intro first hle hlen
    unfold findIf
    by_cases hend : first = last
    · subst hend
      exact ⟨first, if_pos rfl, le_rfl, le_rfl, (fun j _ _ h => by omega),
        fun h => absurd h (lt_irrefl _)⟩
    rw [if_neg hend]
    cases hp : p e with
    | true =>
      exact ⟨first, if_pos rfl, le_rfl, hle, (fun j _ _ h => by omega), fun _ => ⟨e, by simp, hp⟩⟩
    | false =>
      rw [List.length_cons] at hlen
      obtain ⟨m, hm, hfm, hml, hbefore, hfound⟩ := ih (first + 1) (by omega) (by omega)
      refine ⟨m, by simpa using hm, by omega, hml, fun j e' he' hj => ?_, fun h => ?_⟩
      · cases j with
        | zero =>
          obtain rfl : e = e' := by simpa using he'
          exact hp
        | succ j => exact hbefore j e' he' (by omega)
      · obtain ⟨e', he', hp'⟩ := hfound h
        refine ⟨e', ?_, hp'⟩
        rw [show m - first = (m - (first + 1)) + 1 by omega]
        exact he'

variable (cs i now) in
/-- `findLeftmost` stops at the first entry that can satisfy the Interest. -/
theorem findLeftmost_spec (hle : first ≤ last) (hlast : last ≤ cs.table.length) :
    ∃ m, cs.findLeftmost i now first last = .ok m ∧ first ≤ m ∧ m ≤ last ∧
      (∀ k, first ≤ k → k < m → ¬ cs.Sat i now k) ∧ (m < last → cs.Sat i now m) := by
  obtain ⟨m, hm, hfm, hml, hbefore, hfound⟩ := findIf_spec (fun e => e.canSatisfy i now) last
    (cs.table.drop first) first hle (by rw [List.length_drop]; omega)
  refine ⟨m, hm, hfm, hml, fun k hk hkm => ?_, fun h => ?_⟩
  · rintro ⟨e, he, hsat⟩
    have hnot := hbefore (k - first) e (by rw [List.getElem?_drop, ← he]; congr 1; omega) (by omega)
    rw [hsat] at hnot
    cases hnot
  · obtain ⟨e, he, hsat⟩ := hfound h
    rw [List.getElem?_drop, show first + (m - first) = m by omega] at he
    exact ⟨e, he, hsat⟩

/-! ### From right to left -/

/-- `findLastIf` returns the last such entry of a range, or the end. -/
theorem findLastIf_spec (last k : ℕ) (hle : first ≤ k) (hk : k ≤ cs.table.length) :
    ∃ m, cs.findLastIf (fun e => e.canSatisfy i now) first last k = .ok m ∧
      ((m = last ∧ ∀ j, first ≤ j → j < k → ¬ cs.Sat i now j) ∨
        (first ≤ m ∧ m < k ∧ cs.Sat i now m ∧ ∀ j, m < j → j < k → ¬ cs.Sat i now j)) := by
  induction k with
  | zero =>
    obtain rfl : first = 0 := by omega
    exact ⟨last, rfl, .inl ⟨rfl, fun j _ h => absurd h (Nat.not_lt_zero j)⟩⟩
  | succ k ih =>
    unfold findLastIf
    by_cases hend : k + 1 = first
    · exact ⟨last, if_pos hend, .inl ⟨rfl, fun j h h' => by omega⟩⟩
    obtain ⟨e, he⟩ : ∃ e, cs.table[k]? = some e := exists_entry (by omega)
    rw [if_neg hend, he]
    dsimp only
    have hiff : cs.Sat i now k ↔ e.canSatisfy i now = true := sat_iff he
    cases hsat : e.canSatisfy i now with
    | true =>
      exact ⟨k, if_pos rfl, .inr ⟨by omega, by omega, hiff.mpr hsat, fun j h h' => by omega⟩⟩
    | false => grind

/-- A search below a position found a satisfying entry there, or there is none and the search left
the table. -/
def EndsBelow (cs : Cs) (i : Interest) (now : ℤ) (k : ℕ) (r : Except CsFault ℕ) : Prop :=
  (∃ m, r = .ok m ∧ m < k ∧ cs.Sat i now m) ∨
    (∃ fault, r = .error fault) ∧ ∀ j < k, ¬ cs.Sat i now j

/-- Outside the range it runs down to the begin of the table. -/
theorem findLastIf_below (last k : ℕ) (hlt : k < first) (hk : k ≤ cs.table.length) :
    cs.EndsBelow i now k (cs.findLastIf (fun e => e.canSatisfy i now) first last k) := by
  induction k with
  | zero => exact .inr ⟨⟨_, if_neg hlt.ne⟩, fun j h => absurd h (Nat.not_lt_zero j)⟩
  | succ k ih =>
    obtain ⟨e, he⟩ : ∃ e, cs.table[k]? = some e := exists_entry (by omega)
    unfold findLastIf
    rw [if_neg (by omega), he]
    dsimp only
    have hiff : cs.Sat i now k ↔ e.canSatisfy i now = true := sat_iff he
    cases hsat : e.canSatisfy i now with
    | true => exact .inl ⟨k, if_pos rfl, Nat.lt_succ_self k, hiff.mpr hsat⟩
    | false => grind [EndsBelow]

/-- An entry is not below the prefixes of its name. -/
theorem lowerBound_getPrefix_le (he : cs.table[k]? = some e) (n : ℕ) :
    cs.lowerBound (e.data.name.getPrefix n) ≤ k := by
  rw [← not_lt, lt_lowerBound_iff he]
  have hpre : e.data.name.getPrefix n <+: e.data.name := List.take_prefix n _
  cases hq : Name.queryIsFullName (e.data.name.getPrefix n) with
  | true =>
    obtain ⟨p, c, hpc, hc⟩ := exists_of_queryIsFullName hq
    rw [hpc] at hpre ⊢
    obtain ⟨t, ht⟩ := hpre
    rw [below_append hc]
    have hlt : Name.compare p e.data.name = .lt := by
      rw [← ht, List.append_assoc]
      exact ListLex.lt_append p (by simp)
    unfold comparePairs pairOf
    rw [hlt]
    exact fun h => by cases h
  | false =>
    rw [below_iff_of_not_full hq]
    have hle : (Name.compare (e.data.name.getPrefix n) e.data.name).isLE = true :=
      ListLex.isLE_of_isPrefix hpre
    intro hgt
    rw [hgt] at hle
    cases hle

/-- One turn of the loop over the children. -/
theorem findRightmostLoop_succ {prev : ℕ} (hne : prev + 1 ≠ first)
    (he : cs.table[prev]? = some e) (fuel : ℕ) :
    cs.findRightmostLoop i now first last (fuel + 1) (prev + 1) =
      if e.data.name.length = i.name.length then
        (cs.findRightmostAmongExact i now first (prev + 1)).map fun matchExact =>
          if matchExact = prev + 1 then last else matchExact
      else
        (cs.findLeftmost i now (cs.lowerBound (e.data.name.getPrefix (i.name.length + 1)))
          (prev + 1)).bind fun m =>
          if m ≠ prev + 1 then .ok m
          else cs.findRightmostLoop i now first last fuel
            (cs.lowerBound (e.data.name.getPrefix (i.name.length + 1))) := by
  simp only [findRightmostLoop, if_neg hne, he]

variable (cs i now last) in
/-- Outside the range the loop runs down to the begin of the table. -/
theorem findRightmostLoop_below (fuel : ℕ) : ∀ right, right < first →
    right ≤ cs.table.length → right < fuel →
    cs.EndsBelow i now right (cs.findRightmostLoop i now first last fuel right) := by
  induction fuel with
  | zero => exact fun right _ _ h => absurd h (Nat.not_lt_zero right)
  | succ fuel ih =>
    intro right hlt hlen hfuel
    rcases right with _ | prev
    · exact .inr ⟨⟨_, if_neg hlt.ne⟩, fun j h => absurd h (Nat.not_lt_zero j)⟩
    obtain ⟨e, he⟩ : ∃ e, cs.table[prev]? = some e := exists_entry (by omega)
    rw [findRightmostLoop_succ hlt.ne he]
    by_cases hexact : e.data.name.length = i.name.length
    · rw [if_pos hexact]
      unfold findRightmostAmongExact
      rcases findLastIf_below (prev + 1) (prev + 1) hlt hlen with
        ⟨m, hm, hmr, hsat⟩ | ⟨⟨fault, hfault⟩, hnone⟩
      · exact .inl ⟨m, by simp [hm, Except.map, hmr.ne], hmr, hsat⟩
      · exact .inr ⟨⟨fault, by rw [hfault]; rfl⟩, hnone⟩
    rw [if_neg hexact]
    have hleft := lowerBound_getPrefix_le he (i.name.length + 1)
    obtain ⟨m, hm, hfm, hml, hbefore, hfound⟩ :=
      findLeftmost_spec cs i now (hleft.trans (Nat.le_succ prev)) hlen
    rw [hm]
    change cs.EndsBelow i now _ (if m ≠ prev + 1 then Except.ok m else _)
    by_cases hend : m = prev + 1
    · -- nothing in this block
      rw [if_neg (not_not.mpr hend)]
      grind [EndsBelow]
    · exact .inl ⟨m, if_pos hend, by omega, hfound (by omega)⟩

end IcnDemo.Cs
