import Mathlib.Tactic

/-!
# Cutting a list into chunks

A list is cut into a first chunk of one size and further chunks of another size; only the last
chunk may be shorter.  `fuel` bounds the number of chunks, and the length of the list is enough.
-/

namespace Chunks

variable {α : Type*}

/-- A first chunk of `first` elements, then chunks of `size` elements. -/
def chunks (size : ℕ) : ℕ → ℕ → List α → List (List α)
  | 0, _, _ => []
  | fuel + 1, first, l =>
    if l.isEmpty then [] else l.take first :: chunks size fuel size (l.drop first)

/-- The number of chunks of `size` elements that `n` elements need. -/
def count (n size : ℕ) : ℕ :=
  n / size + if n % size ≠ 0 then 1 else 0

variable {size first fuel : ℕ} {l : List α}

/-- Nothing is cut from nothing. -/
theorem chunks_nil (size fuel first : ℕ) : chunks size fuel first ([] : List α) = [] := by
  cases fuel <;> rfl

/-- One chunk is cut off. -/
theorem chunks_cons (size fuel first : ℕ) (h : l ≠ []) :
    chunks size (fuel + 1) first l = l.take first :: chunks size fuel size (l.drop first) := by
  rw [chunks, if_neg (by simpa using h)]

/-- A chunk that is cut off takes fuel for one. -/
theorem length_drop_le (hfirst : 0 < first) (hfuel : l.length ≤ fuel + 1) :
    (l.drop first).length ≤ fuel := by
  rw [List.length_drop]
  omega

/-- The chunks together are the list. -/
theorem flatten_chunks (hsize : 0 < size) (hfirst : 0 < first) (hfuel : l.length ≤ fuel) :
    (chunks size fuel first l).flatten = l := by
  induction fuel generalizing first l with
  | zero =>
    have hl : l = [] := List.eq_nil_of_length_eq_zero (Nat.le_zero.mp hfuel)
    rw [hl]
    rfl
  | succ fuel ih =>
    by_cases hl : l = []
    · rw [hl, chunks_nil]
      rfl
    · rw [chunks_cons size fuel first hl, List.flatten_cons,
        ih hsize (length_drop_le hfirst hfuel), List.take_append_drop]

/-- A chunk is not empty and not too long. -/
theorem length_of_mem_chunks (hsize : 0 < size) (hfirst : 0 < first) {c : List α}
    (hc : c ∈ chunks size fuel first l) : c ≠ [] ∧ c.length ≤ max first size := by
  induction fuel generalizing first l with
  | zero => simp [chunks] at hc
  | succ fuel ih =>
    by_cases hl : l = []
    · rw [hl, chunks_nil] at hc
      simp at hc
    · grind [chunks_cons]

/-- A part that fits is one chunk. -/
theorem count_le (n : ℕ) (h : n ≤ size) (hn : 0 < n) : count n size = 1 := by
  rcases Nat.eq_or_lt_of_le h with rfl | hlt
  · simp [count, Nat.div_self hn]
  · simp [count, Nat.div_eq_of_lt hlt, Nat.mod_eq_of_lt hlt, hn.ne']

/-- A full chunk counts one. -/
theorem count_sub (n : ℕ) (hsize : 0 < size) (h : size ≤ n) :
    count n size = count (n - size) size + 1 := by
  obtain ⟨m, rfl⟩ := Nat.exists_eq_add_of_le' h
  rw [count, Nat.add_div_right m hsize, Nat.add_mod_right, Nat.add_sub_cancel, count]
  omega

/-- The number of chunks. -/
theorem length_chunks (hsize : 0 < size) (hfirst : 0 < first) (hfuel : l.length ≤ fuel)
    (hl : l ≠ []) :
    (chunks size fuel first l).length = 1 + count (l.length - min l.length first) size := by
  induction fuel generalizing first l with
  | zero => exact absurd (List.eq_nil_of_length_eq_zero (Nat.le_zero.mp hfuel)) hl
  | succ fuel ih =>
    rw [chunks_cons size fuel first hl, List.length_cons]
    by_cases hdrop : l.drop first = []
    · have hle : l.length ≤ first := List.drop_eq_nil_iff.mp hdrop
      rw [hdrop, chunks_nil, Nat.min_eq_left hle]
      simp [count]
    have hlt : first < l.length :=
      Nat.lt_of_not_le fun hle => hdrop (List.drop_eq_nil_iff.mpr hle)
    rw [ih hsize (length_drop_le hfirst hfuel) hdrop, List.length_drop,
      Nat.min_eq_right (Nat.le_of_lt hlt)]
    by_cases hone : l.length - first ≤ size
    · rw [Nat.min_eq_left hone, count_le _ hone (by omega)]
      simp [count]
    · rw [Nat.min_eq_right (by omega), count_sub (l.length - first) hsize (by omega)]
      omega

end Chunks
