import Mathlib.Tactic

/-!
# Positions in a sorted table

A table is a list in ascending order, an iterator is an index into it, and a key is given by the
elements that are below it.  `lowerBound` is the end of the elements below the key; that these form
an initial segment is the hypothesis `Cut`.
-/

namespace IcnDemo.SortedTable

open List

variable {α : Type*} {below : α → Bool} {l : List α}

/-- The position of the first element that is not below the key. -/
def lowerBound (below : α → Bool) (l : List α) : ℕ :=
  l.findIdx fun x => !below x

/-- Whatever precedes an element below the key is below the key. -/
def Cut (below : α → Bool) (l : List α) : Prop :=
  l.Pairwise fun x y => below y = true → below x = true

/-- The lower bound is in the table. -/
theorem lowerBound_le_length (below : α → Bool) (l : List α) : lowerBound below l ≤ l.length :=
  findIdx_le_length

/-- From the lower bound on nothing is below. -/
theorem not_below_of_le (hcut : Cut below l) {k : ℕ} (hk : k < l.length)
    (h : lowerBound below l ≤ k) : below l[k] = false := by
  have hlt : lowerBound below l < l.length := Nat.lt_of_le_of_lt h hk
  have hfirst : below l[lowerBound below l] = false := by grind [lowerBound]
  rcases Nat.eq_or_lt_of_le h with heq | hless
  · subst heq
    exact hfirst
  cases hbelow : below l[k] with
  | false => rfl
  | true =>
    rw [pairwise_iff_getElem.mp hcut _ k hlt hk hless hbelow] at hfirst
    cases hfirst

/-- The lower bound cuts off what is below. -/
theorem lt_lowerBound_iff (hcut : Cut below l) {k : ℕ} (hk : k < l.length) :
    k < lowerBound below l ↔ below l[k] = true := by
  constructor
  · intro h
    simpa using not_of_lt_findIdx h
  · grind [not_below_of_le]

/-! ### Insertion -/

variable {β : Type*} (cmp : β → β → Ordering) [Std.TransCmp cmp] (key : α → β)

/-- A new key at its place keeps the order. -/
theorem pairwise_insert {a : α} (hl : l.Pairwise fun x y => cmp (key x) (key y) = .lt)
    (hne : ∀ x ∈ l, cmp (key x) (key a) ≠ .eq) :
    (l.takeWhile (fun x => cmp (key x) (key a) == .lt) ++
      a :: l.dropWhile fun x => cmp (key x) (key a) == .lt).Pairwise fun x y =>
        cmp (key x) (key y) = .lt := by
  induction l with
  | nil => exact pairwise_singleton ..
  | cons x l ih =>
    obtain ⟨hx, hl⟩ := pairwise_cons.mp hl
    have ih := ih hl fun y hy => hne y (mem_cons_of_mem _ hy)
    rcases hcmp : cmp (key x) (key a) with _ | _ | _
    · simp only [takeWhile_cons, dropWhile_cons, hcmp, beq_self_eq_true, if_true, cons_append]
      refine pairwise_cons.mpr ⟨?_, ih⟩
      intro y hy
      rcases mem_append.mp hy with hy | hy
      · exact hx y ((takeWhile_sublist _).subset hy)
      · grind [dropWhile_sublist]
    · exact absurd hcmp (hne x (mem_cons_self ..))
    · have htest : (Ordering.gt == Ordering.lt) = false := rfl
      simp only [takeWhile_cons, dropWhile_cons, hcmp, htest, Bool.false_eq_true,
        if_false, nil_append]
      have hax : cmp (key a) (key x) = .lt := Std.OrientedCmp.lt_of_gt hcmp
      refine pairwise_cons.mpr ⟨?_, pairwise_cons.mpr ⟨hx, hl⟩⟩
      intro y hy
      rcases mem_cons.mp hy with rfl | hy
      · exact hax
      · exact Std.TransCmp.lt_trans hax (hx y hy)

end IcnDemo.SortedTable
