import Mathlib.Tactic

/-!
# Lists in lexicographic order

Facts about `List.compareLex` for a lawful comparison of the elements: a list comes before its
extensions, the extensions of a list form an interval, and when `c'` follows `c` immediately then
the interval of the extensions of `p ++ [c]` ends where `p ++ [c']` begins.
-/

namespace IcnDemo.ListLex

variable {α : Type*} {cmp : α → α → Ordering}

section Trans

variable [Std.TransCmp cmp]

/-- A common first element does not matter. -/
theorem compareLex_cons_self (c : α) (l m : List α) :
    List.compareLex cmp (c :: l) (c :: m) = List.compareLex cmp l m := by
  have hself : cmp c c = .eq := Std.ReflCmp.compare_self
  rw [List.compareLex_cons_cons, hself]
  rfl

/-! ### Extensions -/

/-- A common first part does not matter. -/
theorem compareLex_append (p l m : List α) :
    List.compareLex cmp (p ++ l) (p ++ m) = List.compareLex cmp l m := by
  induction p with
  | nil => rfl
  | cons c p ih => rw [List.cons_append, List.cons_append, compareLex_cons_self, ih]

/-- A list comes before its extensions. -/
theorem lt_append (l : List α) {t : List α} (ht : t ≠ []) :
    List.compareLex cmp l (l ++ t) = .lt := by
  have h : List.compareLex cmp (l ++ []) (l ++ t) = List.compareLex cmp [] t :=
    compareLex_append l [] t
  rw [List.append_nil] at h
  rw [h]
  cases t with
  | nil => exact absurd rfl ht
  | cons c t => exact List.compareLex_nil_cons

/-- A prefix does not come behind. -/
theorem isLE_of_isPrefix {l m : List α} (h : l <+: m) : (List.compareLex cmp l m).isLE = true := by
  obtain ⟨t, rfl⟩ := h
  cases t with
  | nil =>
    have hself : List.compareLex cmp l l = .eq := Std.ReflCmp.compare_self
    rw [List.append_nil, hself]
    rfl
  | cons c t =>
    rw [lt_append l (List.cons_ne_nil c t)]
    rfl

/-- First parts are in the order of the lists. -/
theorem take_isLE {l m : List α} (h : (List.compareLex cmp l m).isLE = true) (k : ℕ) :
    (List.compareLex cmp (l.take k) (m.take k)).isLE = true := by
  induction k generalizing l m with
  | zero =>
    rw [List.take_zero, List.take_zero]
    exact isLE_of_isPrefix List.nil_prefix
  | succ k ih =>
    rcases l with _ | ⟨c, l⟩
    · exact isLE_of_isPrefix List.nil_prefix
    rcases m with _ | ⟨d, m⟩
    · rw [List.compareLex_cons_nil] at h
      cases h
    rw [List.take_succ_cons, List.take_succ_cons]
    rw [List.compareLex_cons_cons] at h ⊢
    cases hcd : cmp c d with
    | gt => rw [hcd] at h; cases h
    | lt => rfl
    | eq =>
      rw [hcd] at h
      exact ih h

end Trans

/-- An extension of a greater list is greater. -/
theorem append_gt {l m : List α} (t : List α) (h : List.compareLex cmp l m = .gt) :
    List.compareLex cmp (l ++ t) m = .gt := by
  induction l generalizing m with
  | nil =>
    cases m with
    | nil => cases h
    | cons d m => cases h
  | cons c l ih =>
    rcases m with _ | ⟨d, m⟩
    · exact List.compareLex_cons_nil
    rw [List.cons_append]
    rw [List.compareLex_cons_cons] at h ⊢
    cases hcd : cmp c d with
    | lt => rw [hcd] at h; cases h
    | gt => rfl
    | eq =>
      rw [hcd] at h
      exact ih h

variable [Std.TransCmp cmp] [Std.LawfulEqCmp cmp]

/-- Between a list and one of its extensions are extensions only. -/
theorem isPrefix_of_between {p l m : List α} (hpl : (List.compareLex cmp p l).isLE = true)
    (hlm : (List.compareLex cmp l m).isLE = true) (h : p <+: m) : p <+: l := by
  induction p generalizing l m with
  | nil => exact List.nil_prefix
  | cons c p ih =>
    obtain ⟨t, rfl⟩ := h
    rcases l with _ | ⟨d, l⟩
    · rw [List.compareLex_cons_nil] at hpl
      cases hpl
    rw [List.compareLex_cons_cons] at hpl
    rw [List.cons_append, List.compareLex_cons_cons] at hlm
    cases hcd : cmp c d with
    | gt => rw [hcd] at hpl; cases hpl
    | lt =>
      rw [Std.OrientedCmp.gt_of_lt hcd] at hlm
      cases hlm
    | eq => grind

/-! ### Immediate successors -/

/-- The extensions of `p ++ [c]` are what lies between `p ++ [c]` and `p ++ [c']`, if `c'` follows
`c` immediately. -/
theorem isPrefix_iff_between {c c' : α} (hlt : cmp c c' = .lt)
    (hnext : ∀ d, (cmp c d).isLE = true → cmp d c' = .lt → d = c) (p l : List α) :
    p ++ [c] <+: l ↔ (List.compareLex cmp (p ++ [c]) l).isLE = true ∧
      List.compareLex cmp l (p ++ [c']) = .lt := by
  constructor
  · rintro ⟨t, rfl⟩
    refine ⟨isLE_of_isPrefix (List.prefix_append _ _), ?_⟩
    rw [List.append_assoc, compareLex_append, List.singleton_append, List.compareLex_cons_cons, hlt]
    rfl
  rintro ⟨hle, hless⟩
  induction p generalizing l with
  | nil =>
    rcases l with _ | ⟨d, l⟩
    · rw [List.nil_append, List.compareLex_cons_nil] at hle; cases hle
    rw [List.nil_append, List.compareLex_cons_cons] at hle hless
    have hcd : (cmp c d).isLE = true := by
      cases hcd : cmp c d with
      | gt => rw [hcd] at hle; cases hle
      | lt => rfl
      | eq => rfl
    have hdc : cmp d c' = .lt := by
      cases hdc : cmp d c' with
      | gt => rw [hdc] at hless; cases hless
      | lt => rfl
      | eq =>
        rw [hdc] at hless
        cases l <;> cases hless
    rw [hnext d hcd hdc]
    exact ⟨l, rfl⟩
  | cons a p ih =>
    rcases l with _ | ⟨d, l⟩
    · rw [List.cons_append, List.compareLex_cons_nil] at hle; cases hle
    rw [List.cons_append, List.compareLex_cons_cons] at hle hless
    cases had : cmp a d with
    | gt => rw [had] at hle; cases hle
    | lt =>
      rw [Std.OrientedCmp.gt_of_lt had] at hless
      cases hless
    | eq => grind

end IcnDemo.ListLex
