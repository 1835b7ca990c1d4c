import Mathlib.Tactic

/-!
# Values inherited along prefixes

The nodes of a tree of lists are the lists themselves, and the ancestors of a node are its proper
prefixes.  Each node tells the nodes below it one of three things: here is a value (`give`), there
is none for you (`block`), or ask further up (`pass`).  `inherit D n` is what node `n` is told in
the end, and `source D n` what a node directly below it is told.

The point of the theory is the effect of a change at one node: `inherit_congr_of_not_below` and
`inherit_congr_of_closed` say who is not concerned, and `inherit_of_open` says that all the others
are told the same, namely `source` at the changed node.
-/

namespace IcnDemo.PrefixInherit

variable {α β : Type*}

/-- What a node tells the nodes below it. -/
inductive Local (β : Type*) where
  | give (b : β)
  | block
  | pass
deriving DecidableEq

namespace Local

/-- The answer below a node, given the answer at the node. -/
def resolve : Local β → Option β → Option β
  | give b, _ => some b
  | block, _ => none
  | pass, o => o

end Local

/-- The answer of the prefixes of `n` shorter than `k`, the longest one first. -/
def inheritUpTo (D : List α → Local β) (n : List α) : ℕ → Option β
  | 0 => none
  | k + 1 => (D (n.take k)).resolve (inheritUpTo D n k)

/-- What a node is told by its proper prefixes. -/
def inherit (D : List α → Local β) (n : List α) : Option β :=
  inheritUpTo D n n.length

/-- What a node makes the nodes directly below it inherit. -/
def source (D : List α → Local β) (n : List α) : Option β :=
  (D n).resolve (inherit D n)

/-- Every node strictly between two nodes passes. -/
def Open (D : List α → Local β) (n y : List α) : Prop :=
  ∀ i, n.length < i → i < y.length → D (y.take i) = .pass

variable {D D' : List α → Local β} {n y : List α}

/-- The answer depends on the prefixes that are asked. -/
theorem inheritUpTo_congr {k : ℕ} (h : ∀ i < k, D' (n.take i) = D (n.take i)) :
    inheritUpTo D' n k = inheritUpTo D n k := by
  induction k with
  | zero => rfl
  | succ k ih => grind [inheritUpTo]

/-- The answer of the shorter prefixes. -/
theorem inheritUpTo_take (D : List α → Local β) (n : List α) {k m : ℕ} (h : k ≤ m) :
    inheritUpTo D (n.take m) k = inheritUpTo D n k := by
  induction k with
  | zero => rfl
  | succ k ih => grind [inheritUpTo]

/-- A prefix and those above it answer with its source. -/
theorem inheritUpTo_succ_length (D : List α → Local β) (h : n <+: y) :
    inheritUpTo D y (n.length + 1) = source D n := by
  have htake : y.take n.length = n := (List.prefix_iff_eq_take.mp h).symm
  grind [inheritUpTo, source, inherit, inheritUpTo_take]

/-- Nodes that pass do not matter. -/
theorem inheritUpTo_of_pass {k m : ℕ} (hkm : k ≤ m)
    (h : ∀ i, k ≤ i → i < m → D (n.take i) = .pass) : inheritUpTo D n m = inheritUpTo D n k := by
  induction m with
  | zero => rw [Nat.le_zero.mp hkm]
  | succ m ih => grind [inheritUpTo, Local.resolve]

/-- A node inherits the source of the last one that does not pass. -/
theorem inherit_of_open (hpre : n <+: y) (hne : n ≠ y) (h : Open D n y) :
    inherit D y = source D n := by
  have hlt : n.length < y.length := by grind [hpre.eq_of_length]
  rw [← inheritUpTo_succ_length D hpre]
  exact inheritUpTo_of_pass hlt fun i hi hi' => h i hi hi'

/-- All nodes pass, or there is a last one that does not. -/
theorem exists_last (D : List α → Local β) (y : List α) (k : ℕ) : (∀ j < k, D (y.take j) = .pass) ∨
      ∃ i < k, D (y.take i) ≠ .pass ∧ ∀ j, i < j → j < k → D (y.take j) = .pass := by
  induction k with
  | zero => exact .inl fun j hj => absurd hj (Nat.not_lt_zero j)
  | succ k ih => grind

/-! ### A change at one node -/

section

variable (hother : ∀ z, z ≠ n → D' z = D z)

include hother

/-- A change at a node does not concern the nodes that are not below. -/
theorem inherit_congr_of_not_below (h : ¬ (n <+: y ∧ n ≠ y)) : inherit D' y = inherit D y := by
  refine inheritUpTo_congr fun i hi => hother _ ?_
  grind

/-- A change at a node does not concern the nodes that are told something by a node between. -/
theorem inherit_congr_of_closed (h : ¬ Open D n y) : inherit D' y = inherit D y := by
  unfold Open at h
  push Not at h
  obtain ⟨i, hni, hiy, hanswer⟩ := h
  -- up from the node that answers nothing has changed, and it hides what is above it
  have hsteps : ∀ m, i + 1 ≤ m → m ≤ y.length → inheritUpTo D' y m = inheritUpTo D y m := by
    intro m him
    induction m, him using Nat.le_induction with
    | base =>
      intro _
      unfold inheritUpTo
      have hne : y.take i ≠ n := by grind
      rw [hother _ hne]
      cases hD : D (y.take i) with
      | give b => rfl
      | block => rfl
      | pass => exact absurd hD hanswer
    | succ m him ih =>
      intro hm
      unfold inheritUpTo
      have hne : y.take m ≠ n := by grind
      rw [hother _ hne, ih (Nat.le_of_succ_le hm)]
  exact hsteps y.length hiy le_rfl

/-- A change at a node does not concern what it is told. -/
theorem inherit_congr_self : inherit D' n = inherit D n :=
  inherit_congr_of_not_below hother fun h => h.2 rfl

end

/-! ### What a node has itself or inherits -/

/-- Every node from the one below `n` down to `y` passes. -/
def Covers (D : List α → Local β) (n y : List α) : Prop :=
  n <+: y ∧ ∀ i, n.length < i → i ≤ y.length → D (y.take i) = .pass

/-- Nodes that pass have the source of the node above. -/
theorem source_of_covers (h : Covers D n y) : source D y = source D n := by
  by_cases hne : n = y
  · rw [hne]
  have hlt : n.length < y.length :=
    lt_of_le_of_ne h.1.length_le fun hlen => hne (h.1.eq_of_length hlen)
  have hpass := h.2 y.length hlt le_rfl
  rw [List.take_length] at hpass
  rw [source, hpass, Local.resolve, inherit_of_open h.1 hne fun i hni hiy => h.2 i hni hiy.le]

/-- A change at a node concerns only what it covers. -/
theorem source_congr_of_not_covers (hother : ∀ z, z ≠ n → D' z = D z) (h : ¬ Covers D n y) :
    source D' y = source D y := by
  have hne : y ≠ n := by
    rintro rfl
    exact h ⟨List.prefix_rfl, fun i hni hiy => by omega⟩
  rw [source, source, hother y hne]
  cases hy : D y with
  | give b => rfl
  | block => rfl
  | pass =>
    rw [Local.resolve, Local.resolve]
    by_cases hpre : n <+: y
    · refine inherit_congr_of_closed hother fun hopen => h ⟨hpre, fun i hni hiy => ?_⟩
      rcases Nat.eq_or_lt_of_le hiy with rfl | hlt
      · rw [List.take_length, hy]
      · exact hopen i hni hlt
    · exact inherit_congr_of_not_below hother fun hbelow => hpre hbelow.1

/-- A node inherits the source of its parent. -/
theorem inherit_eq_source_dropLast (D : List α → Local β) (h : n ≠ []) :
    inherit D n = source D n.dropLast := by
  have hpos := List.length_pos_of_ne_nil h
  have hlen : n.dropLast.length + 1 = n.length := by
    rw [List.length_dropLast]
    omega
  rw [inherit, ← hlen, inheritUpTo_succ_length D (List.dropLast_prefix n)]

/-- The longest prefix with a value gives it. -/
theorem source_eq_of_longest {m : List α} {b : β} (hpre : m <+: y) (hm : D m = .give b)
    (hpass : ∀ i, m.length < i → i ≤ y.length → D (y.take i) = .pass) : source D y = some b := by
  rw [source_of_covers ⟨hpre, hpass⟩, source, hm, Local.resolve]

end IcnDemo.PrefixInherit
