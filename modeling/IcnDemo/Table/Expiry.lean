import IcnDemo.Pit.Match
import IcnDemo.Cs.Defs
import IcnDemo.Codec.Interest
import IcnDemo.Lib.Keyed

/-!
# Times in the tables

The lifetime of an Interest and the freshness period of a Data are numbers of milliseconds that a
peer chooses.  They are read as unsigned 64-bit numbers, kept as signed ones, multiplied by a
million, and added to the clock.  Each of the steps may leave the range of a signed 64-bit integer.

All in all a time is not before the clock exactly if the clock and the nanoseconds modulo `2 ^ 64`
add up to a time that the clock can show (`Reaches`).
-/

namespace IcnDemo

/-! ### Signed 64-bit integers -/

/-- Wrapping in terms of the remainder. -/
theorem wrap64_eq (x : ℤ) :
    wrap64 x = if x % 2 ^ 64 < 2 ^ 63 then x % 2 ^ 64 else x % 2 ^ 64 - 2 ^ 64 := rfl

/-- The end is not before the beginning if the sum does not wrap. -/
theorem le_wrap64_add_iff {now : ℤ} (hmin : -2 ^ 63 ≤ now) (hmax : now < 2 ^ 63) (x : ℤ) :
    now ≤ wrap64 (now + wrap64 x) ↔ now + x % 2 ^ 64 < 2 ^ 63 := by
  rw [wrap64_eq, wrap64_eq]
  omega

/-- A number of 64 bits read as signed. -/
theorem toInt_toInt64 (v : UInt64) :
    v.toInt64.toInt = if v.toNat < 2 ^ 63 then (v.toNat : ℤ) else v.toNat - 2 ^ 64 := by
  rw [← Int64.toInt_toBitVec, UInt64.toBitVec_toInt64, BitVec.toInt_eq_toNat_cond,
    UInt64.toNat_toBitVec]
  omega

variable (now : Int64) (milliseconds : ℕ)

/-- The clock and a number of milliseconds, taken modulo `2 ^ 64` nanoseconds, stay in the range. -/
def Reaches : Prop :=
  now.toInt + ((milliseconds * 1000000 % 2 ^ 64 : ℕ) : ℤ) < 2 ^ 63

instance : Decidable (Reaches now milliseconds) :=
  inferInstanceAs (Decidable (_ < _))

/-- The end is not before the beginning if the clock reaches it. -/
theorem le_wrap64_add_iff_reaches :
    now.toInt ≤ wrap64 (now.toInt + wrap64 ((milliseconds : ℤ) * 1000000)) ↔
      Reaches now milliseconds := by
  rw [le_wrap64_add_iff (Int64.le_toInt now) (Int64.toInt_lt now), Reaches]
  push_cast
  rfl

/-! ### Records -/

namespace Pit.Entry

/-- The in-record that was written. -/
theorem getInRecord_insertOrUpdateInRecord (P : Pit.Entry) (face : FaceRef) (i : Interest)
    (nonce : UInt32) (now : ℤ) :
    (P.insertOrUpdateInRecord face i nonce now).getInRecord face
      = some ⟨face, nonce, now, expiryOf now i.lifetime, i⟩ := by
  unfold insertOrUpdateInRecord getInRecord
  rcases hn : P.inRecords.findIdx? (fun r => r.face == face) with _ | n
  · simp only [hn]
    exact List.find?_cons_of_pos (by simp)
  · obtain ⟨r, hr⟩ := Keyed.exists_find?_of_findIdx? hn
    simp only [hn]
    rw [List.set_eq_modify, Keyed.find?_modify_findIdx? (by simp) hn, hr]
    rfl

/-- The out-record that was written. -/
theorem getOutRecord_insertOrUpdateOutRecord (P : Pit.Entry) (face : FaceRef) (i : Interest)
    (nonce : UInt32) (now : ℤ) :
    ∃ nack, (P.insertOrUpdateOutRecord face i nonce now).getOutRecord face
      = some ⟨face, nonce, now, expiryOf now i.lifetime, nack⟩ := by
  unfold insertOrUpdateOutRecord getOutRecord
  rcases hn : P.outRecords.findIdx? (fun r => r.face == face) with _ | n
  · simp only [hn]
    exact ⟨none, List.find?_cons_of_pos (by simp)⟩
  obtain ⟨r, hr⟩ := Keyed.exists_find?_of_findIdx? hn
  have hface : r.face = face := by simpa using List.find?_some hr
  simp only [hn]
  rw [Keyed.find?_modify_findIdx? (by simp) hn, hr, ← hface]
  exact ⟨r.incomingNack, rfl⟩

end Pit.Entry

/-! ### The times -/

/-- The lifetime of an Interest with an InterestLifetime element, in milliseconds: a number in the
upper half of the range counts as none. -/
def effectiveLifetime (v : UInt64) : ℕ :=
  if v.toNat < 2 ^ 63 then v.toNat else 4000

/-- A record expires not before now if the clock reaches its lifetime. -/
theorem le_expiryOf_iff (v : UInt64) :
    now.toInt ≤ Pit.expiryOf now.toInt v.toInt64.toInt ↔ Reaches now (effectiveLifetime v) := by
  rw [← le_wrap64_add_iff_reaches]
  grind [Pit.expiryOf, effectiveLifetime, toInt_toInt64, v.toNat_lt]

/-- The stale time is not before a time, or there is none. -/
def NotBefore (now : ℤ) : Option ℤ → Prop
  | none => True
  | some t => now ≤ t

/-- Data becomes stale not before now if the clock reaches its freshness period. -/
theorem notBefore_updateStaleTime_iff (w : UInt64) {e : CsEntry}
    (he : e.data.freshnessPeriod = w.toInt64.toInt) :
    NotBefore now.toInt (e.updateStaleTime now.toInt).staleTime ↔
      2 ^ 63 ≤ w.toNat ∨ Reaches now w.toNat := by
  unfold CsEntry.updateStaleTime
  grind [toInt_toInt64, w.toNat_lt, NotBefore, le_wrap64_add_iff_reaches]

/-- The elements are read as their numbers, the records of a face expire at or after the time they
are renewed exactly if the clock reaches the lifetime, and a Data becomes stale at or after the time
of its insertion exactly if it never does or the clock reaches the period. -/
theorem times_not_before_iff (now : Int64) (v w : UInt64) {i : Interest} {e : CsEntry}
    (hi : i.lifetime = v.toInt64.toInt) (he : e.data.freshnessPeriod = w.toInt64.toInt)
    (P : Pit.Entry) (face : FaceRef) (nonce : UInt32) :
    (∀ b : Block, b.readNonNegativeInteger = some v →
        Codec.Interest.readLifetime (some b) = some v.toInt64) ∧
      (∀ b : Block, b.readNonNegativeInteger = some w →
        Codec.MetaInfo.decodeFreshnessPeriod (some b) = some w.toInt64) ∧
      (∃ r, (P.insertOrUpdateInRecord face i nonce now.toInt).getInRecord face = some r ∧
        (r.lastRenewed ≤ r.expiry ↔ Reaches now (effectiveLifetime v))) ∧
      (∃ r, (P.insertOrUpdateOutRecord face i nonce now.toInt).getOutRecord face = some r ∧
        (r.lastRenewed ≤ r.expiry ↔ Reaches now (effectiveLifetime v))) ∧
      (NotBefore now.toInt (e.updateStaleTime now.toInt).staleTime ↔
        2 ^ 63 ≤ w.toNat ∨ Reaches now w.toNat) := by
  refine ⟨fun b hb => ?_, fun b hb => ?_, ?_, ?_, notBefore_updateStaleTime_iff now w he⟩
  · rw [Codec.Interest.readLifetime, hb]
    rfl
  · rw [Codec.MetaInfo.decodeFreshnessPeriod, hb]
    rfl
  · simp_all [P.getInRecord_insertOrUpdateInRecord, le_expiryOf_iff]
  · obtain ⟨nack, hr⟩ := P.getOutRecord_insertOrUpdateOutRecord face i nonce now.toInt
    refine ⟨_, hr, ?_⟩
    rw [hi]
    exact le_expiryOf_iff now v

theorem length_zeroDigest : (List.replicate 32 (0 : UInt8)).length = 32 :=
  List.length_replicate

/-- A Data with a freshness period, as an entry of the content store. -/
def freshEntry (period : ℤ) : CsEntry :=
  ⟨⟨Name.encoded [], List.replicate 32 0, length_zeroDigest, period, none, false⟩, false, none⟩

/-- An empty PIT entry for `/`. -/
def emptyEntry : Pit.Entry :=
  ⟨Pit.plainInterest [], [], [], none, none, none⟩

/-- Four seconds and one second after the start of the clock. -/
theorem times_not_before_iff_fourSeconds :
    (∃ r, (emptyEntry.insertOrUpdateInRecord 1 (Pit.plainInterest []) 0 100).getInRecord 1 =
      some r ∧
      r.lastRenewed ≤ r.expiry) ∧
    NotBefore 100 ((freshEntry 1000).updateStaleTime 100).staleTime := by
  obtain ⟨-, -, ⟨r, hr, hiff⟩, -, hstale⟩ := times_not_before_iff 100 4000 1000
    (i := Pit.plainInterest []) (e := freshEntry 1000) rfl rfl emptyEntry 1 0
  exact ⟨⟨r, hr, hiff.mpr (by decide)⟩, hstale.mpr (.inr (by decide))⟩

/-- 9223372036855 milliseconds, some 292 years, are more than the clock can show. -/
theorem times_before_the_clock : (Block.make Tlv.interestLifetime
      [0, 0, 0x08, 0x63, 0x7b, 0xd0, 0x5a, 0xf7]).readNonNegativeInteger
      = some 9223372036855 ∧
    Pit.expiryOf 0 (UInt64.toInt64 9223372036855).toInt = -9223372036854551616 ∧
    ((freshEntry (UInt64.toInt64 9223372036855).toInt).updateStaleTime 0).staleTime
      = some (-9223372036854551616) := by
  decide +kernel

end IcnDemo
