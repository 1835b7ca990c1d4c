import Mathlib.Tactic

/-!
# Big-endian numbers

A number written in a fixed number of octets, most significant first, and the number that a
string of octets denotes.
-/

namespace BigEndian

/-- The low `k` octets of `n`, most significant first. -/
def toBytes : ℕ → ℕ → List UInt8
  | 0, _ => []
  | k + 1, n => toBytes k (n / 256) ++ [UInt8.ofNat n]

variable (bs : List UInt8)

/-- The number that a string of octets denotes. -/
def ofBytes : ℕ :=
  bs.foldl (fun v b => 256 * v + b.toNat) 0

/-- The number of octets. -/
@[simp] theorem length_toBytes (k n : ℕ) : (toBytes k n).length = k := by
  induction k generalizing n with
  | zero => rfl
  | succ k ih => simp [toBytes, ih]

/-- The last octet is the least one. -/
@[simp] theorem ofBytes_concat (b : UInt8) : ofBytes (bs ++ [b]) = 256 * ofBytes bs + b.toNat := by
  simp [ofBytes]

/-- A number that fits is read back. -/
theorem ofBytes_toBytes {k n : ℕ} (h : n < 256 ^ k) : ofBytes (toBytes k n) = n := by
  induction k generalizing n with
  | zero =>
    have hn : n = 0 := by simpa using h
    subst hn
    rfl
  | succ k ih =>
    have hdiv : n / 256 < 256 ^ k := by
      rw [pow_succ] at h
      exact Nat.div_lt_of_lt_mul (by rwa [mul_comm] at h)
    rw [toBytes, ofBytes_concat, ih hdiv]
    have hlow : (UInt8.ofNat n).toNat = n % 256 := by simp
    rw [hlow]
    exact Nat.div_add_mod n 256

/-- Reading on after a number. -/
theorem ofBytes_foldl (v : ℕ) :
    bs.foldl (fun v b => 256 * v + b.toNat) v = v * 256 ^ bs.length + ofBytes bs := by
  induction bs generalizing v with
  | nil => simp [ofBytes]
  | cons b bs ih => grind [ofBytes]

/-- The first octet is the greatest one. -/
theorem ofBytes_cons (b : UInt8) (bs : List UInt8) :
    ofBytes (b :: bs) = b.toNat * 256 ^ bs.length + ofBytes bs := by
  have h := ofBytes_foldl bs (256 * 0 + b.toNat)
  simpa [ofBytes] using h

/-- As many octets hold no greater number. -/
theorem ofBytes_lt : ofBytes bs < 256 ^ bs.length := by
  induction bs with
  | nil => simp [ofBytes]
  | cons b bs ih =>
    have hb := b.toNat_lt
    rw [ofBytes_cons, List.length_cons, pow_succ]
    nlinarith

/-- Octets are compared as numbers. -/
theorem compare_octet (b c : UInt8) : Ord.compare b c = Ord.compare b.toNat c.toNat := by
  have hlt : (b < c) = (b.toNat < c.toNat) := propext UInt8.lt_iff_toNat_lt
  simp_all [UInt8.toNat_inj, Ord.compare, compareOfLessAndEq]

/-- Octets of equal length are compared as numbers. -/
theorem compareLex_eq_compare {bs cs : List UInt8} (h : bs.length = cs.length) :
    List.compareLex Ord.compare bs cs = Ord.compare (ofBytes bs) (ofBytes cs) := by
  induction bs generalizing cs with
  | nil =>
    obtain rfl := List.length_eq_zero_iff.mp h.symm
    rfl
  | cons b bs ih =>
    obtain ⟨c, cs, rfl⟩ := List.exists_cons_of_length_pos (l := cs) (by simp at h; omega)
    have hlen : bs.length = cs.length := by simpa using h
    have hbs := ofBytes_lt bs
    have hcs := ofBytes_lt cs
    rw [List.compareLex_cons_cons, ih hlen, ofBytes_cons, ofBytes_cons, compare_octet]
    rw [hlen] at hbs ⊢
    rcases lt_trichotomy b.toNat c.toNat with hlt | heq | hgt
    · rw [compare_lt_iff_lt.mpr hlt]
      exact (compare_lt_iff_lt.mpr (by nlinarith)).symm
    · simp_all [Ord.compare, compareOfLessAndEq]
    · rw [compare_gt_iff_gt.mpr hgt]
      exact (compare_gt_iff_gt.mpr (by nlinarith)).symm

end BigEndian
