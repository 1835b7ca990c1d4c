import Mathlib.Tactic

/-!
# Maps in descending order

A map over a linear order, as the list of its entries from the greatest key to the least.  The lower
bound of a key in this order is the entry with the greatest key that is not above it.  What an
operation does to lower bounds is read off from the entries it leaves (`lowerBound_eq_some_iff`).
-/

namespace DescendingMap

variable {α β : Type*} [LinearOrder α] {l m : List (α × β)} {k c d : α} {v : β} {p q : α × β}

/-- Keys in descending order. -/
def Descending (l : List (α × β)) : Prop :=
  l.Pairwise fun p q => q.1 < p.1

/-- The first entry that does not come before the key. -/
def lowerBound (l : List (α × β)) (c : α) : Option (α × β) :=
  l.find? fun p => decide (p.1 ≤ c)

/-- Insert an entry, unless there is one with its key. -/
def insert (k : α) (v : β) : List (α × β) → List (α × β)
  | [] => [(k, v)]
  | p :: l =>
    if k < p.1 then p :: insert k v l
    else if p.1 = k then p :: l
    else (k, v) :: p :: l

/-- Set the value of an entry that is there. -/
def assign (k : α) (v : β) (l : List (α × β)) : List (α × β) :=
  l.map fun p => if p.1 = k then (p.1, v) else p

/-! ### Entries -/

/-- The keys are in descending order. -/
theorem descending_iff_map : Descending l ↔ (l.map Prod.fst).Pairwise (· > ·) := by
  rw [List.pairwise_map]
  rfl

section

variable (h : Descending l)

include h

/-- Insertion adds a key that is not there. -/
theorem mem_insert : p ∈ insert k v l ↔ p ∈ l ∨ p = (k, v) ∧ ∀ q ∈ l, q.1 ≠ k := by
  induction l with
  | nil => simp [insert]
  | cons r l ih =>
    obtain ⟨hr, hl⟩ := List.pairwise_cons.mp h
    unfold insert
    by_cases hlt : k < r.1
    · rw [if_pos hlt, List.mem_cons, ih hl]
      simp [hlt.ne', or_assoc]
    grind

/-- Insertion keeps the order. -/
theorem Descending.insert (k : α) (v : β) : Descending (DescendingMap.insert k v l) := by
  induction l with
  | nil => exact List.pairwise_singleton _ _
  | cons r l ih =>
    obtain ⟨hr, hl⟩ := List.pairwise_cons.mp h
    unfold DescendingMap.insert
    by_cases hlt : k < r.1
    · rw [if_pos hlt]
      refine List.pairwise_cons.mpr ⟨?_, ih hl⟩
      intro q hq
      rcases (mem_insert hl).mp hq with hq | ⟨rfl, -⟩
      · exact hr q hq
      · exact hlt
    rw [if_neg hlt]
    by_cases heq : r.1 = k
    · rw [if_pos heq]
      exact h
    · rw [if_neg heq]
      refine List.pairwise_cons.mpr ⟨?_, h⟩
      grind

/-- Assignment keeps the order. -/
theorem Descending.assign (k : α) (v : β) : Descending (assign k v l) := by
  refine List.pairwise_map.mpr (h.imp ?_)
  grind

/-- A part of a map is in order. -/
theorem Descending.filter (f : α × β → Bool) : Descending (l.filter f) :=
  List.Pairwise.filter f h

/-- Insertion and assignment set one key. -/
theorem mem_assign_insert : p ∈ assign k v (insert k v l) ↔ p = (k, v) ∨ p ∈ l ∧ p.1 ≠ k := by
  unfold assign
  rw [List.mem_map]
  constructor
  · grind [mem_insert]
  rintro (rfl | ⟨hp, hkey⟩)
  · by_cases hthere : ∃ q ∈ l, q.1 = k
    · obtain ⟨q, hq, hkey⟩ := hthere
      exact ⟨q, (mem_insert h).mpr (.inl hq), by rw [if_pos hkey, hkey]⟩
    · exact ⟨(k, v), (mem_insert h).mpr (.inr ⟨rfl, fun q hq hkey => hthere ⟨q, hq, hkey⟩⟩),
        if_pos rfl⟩
  · exact ⟨p, (mem_insert h).mpr (.inl hp), if_neg hkey⟩

end

/-- A greatest key comes first. -/
theorem assign_insert_of_forall_lt (h : ∀ p ∈ l, p.1 < k) :
    assign k v (insert k v l) = (k, v) :: l := by
  have hinsert : insert k v l = (k, v) :: l := by
    rcases l with _ | ⟨p, l⟩ <;> grind [insert]
  have hkept : l.map (fun p => if p.1 = k then (p.1, v) else p) = l :=
    (List.map_congr_left fun p hp => if_neg (h p hp).ne).trans (List.map_id' l)
  rw [hinsert, assign, List.map_cons, if_pos rfl, hkept]

/-! ### Lower bounds -/

/-- The lower bound is the greatest key that is not greater. -/
theorem lowerBound_eq_some_iff (h : Descending l) :
    lowerBound l c = some p ↔ p ∈ l ∧ p.1 ≤ c ∧ ∀ q ∈ l, q.1 ≤ c → q.1 ≤ p.1 := by
  unfold lowerBound
  induction l with
  | nil => simp
  | cons r l ih =>
    obtain ⟨hr, hl⟩ := List.pairwise_cons.mp h
    by_cases hle : r.1 ≤ c
    · grind
    · rw [List.find?_cons_of_neg (by simpa using hle), ih hl]
      grind

/-- There is no lower bound if all keys are greater. -/
theorem lowerBound_eq_none_iff : lowerBound l c = none ↔ ∀ q ∈ l, c < q.1 := by
  simp [lowerBound]

/-- The lower bound depends on the keys that are not greater. -/
theorem lowerBound_congr (hl : Descending l) (hm : Descending m)
    (h : ∀ q : α × β, q.1 ≤ c → (q ∈ l ↔ q ∈ m)) : lowerBound l c = lowerBound m c := by
  rcases hp : lowerBound m c with _ | p <;> grind [lowerBound_eq_none_iff, lowerBound_eq_some_iff]

/-- Two maps with the same entries from a key on have the same lower bound where there is one of
these. -/
theorem lowerBound_congr_above (hl : Descending l) (hm : Descending m)
    (h : ∀ q : α × β, d < q.1 → (q ∈ l ↔ q ∈ m)) (habove : ∃ q ∈ m, d < q.1 ∧ q.1 ≤ c) :
    lowerBound l c = lowerBound m c := by
  obtain ⟨r, hr, hdr, hrc⟩ := habove
  rcases hp : lowerBound m c with _ | p
  · exact absurd hrc (not_le.mpr (lowerBound_eq_none_iff.mp hp r hr))
  · grind [lowerBound_eq_some_iff]

/-- Without a key between, the lower bounds are the same. -/
theorem lowerBound_eq_of_none_between (hl : Descending l) (hdc : d ≤ c)
    (h : ∀ q ∈ l, d < q.1 → ¬ q.1 ≤ c) : lowerBound l c = lowerBound l d := by
  have hiff : ∀ q ∈ l, q.1 ≤ c ↔ q.1 ≤ d := by grind
  refine Option.ext fun p => ?_
  grind [lowerBound_eq_some_iff]

end DescendingMap
