import Mathlib.Tactic

/-!
# Hexadecimal digits

Bytes are written as two hexadecimal digits, in upper or in lower case, and read back.
-/

namespace Hex

variable (upper : Bool) (b : UInt8)

/-- The character of a digit. -/
def digit (n : ℕ) : UInt8 :=
  if n < 10 then UInt8.ofNat (48 + n) else UInt8.ofNat ((if upper then 55 else 87) + n)

/-- The value of a character, in either case. -/
def ofDigit (c : UInt8) : Option ℕ :=
  if 48 ≤ c.toNat ∧ c.toNat ≤ 57 then some (c.toNat - 48)
  else if 65 ≤ c.toNat ∧ c.toNat ≤ 70 then some (c.toNat - 55)
  else if 97 ≤ c.toNat ∧ c.toNat ≤ 102 then some (c.toNat - 87)
  else none

/-- A byte as two digits. -/
def ofByte : List UInt8 :=
  [digit upper (b.toNat / 16), digit upper (b.toNat % 16)]

/-- Values of digits, two for each byte. -/
def pairs : List ℕ → List UInt8
  | hi :: lo :: rest => UInt8.ofNat (16 * hi + lo) :: pairs rest
  | _ => []

/-- A digit is read back. -/
theorem ofDigit_digit {n : ℕ} (h : n < 16) : ofDigit (digit upper n) = some n := by
  have hall : ∀ (u : Bool) (k : Fin 16), ofDigit (digit u k.val) = some k.val := by decide
  exact hall upper ⟨n, h⟩

/-- An octet is made of its two digits. -/
theorem ofNat_digits : UInt8.ofNat (16 * (b.toNat / 16) + b.toNat % 16) = b := by
  rw [Nat.div_add_mod]
  exact UInt8.ofNat_toNat

/-- The first digit of an octet. -/
theorem div_lt : b.toNat / 16 < 16 := by
  have := b.toNat_lt
  omega

/-- The second digit of an octet. -/
theorem mod_lt : b.toNat % 16 < 16 :=
  Nat.mod_lt _ (by decide)

/-- Octets are read back from their digits. -/
theorem pairs_ofByte (bs : List UInt8) :
    pairs ((bs.flatMap (ofByte upper)).filterMap ofDigit) = bs := by
  induction bs with
  | nil => rfl
  | cons b bs ih =>
    have hcons : ((b :: bs).flatMap (ofByte upper)).filterMap ofDigit =
        b.toNat / 16 :: b.toNat % 16 :: (bs.flatMap (ofByte upper)).filterMap ofDigit := by
      simp [ofByte, ofDigit_digit upper (div_lt b), ofDigit_digit upper (mod_lt b)]
    rw [hcons, pairs, ih, ofNat_digits]

/-- Two digits for each octet. -/
theorem length_flatMap_ofByte (bs : List UInt8) :
    (bs.flatMap (ofByte upper)).length = 2 * bs.length := by
  induction bs with
  | nil => rfl
  | cons b bs ih =>
    simp only [List.flatMap_cons, List.length_append, ih, List.length_cons]
    simp [ofByte]
    omega

end Hex
