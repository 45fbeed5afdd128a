import Mathlib

namespace Foundation

/-! # Flag bits above a counter in one machine word

`packed flags count` puts `flags` in the high bits and a counter in the low
bits.  Masks built the same way act on the flags alone, and adding or
subtracting one acts on the counter alone as long as it does not overflow.
-/

variable {flagBits countBits : ℕ}

def packed (flags : BitVec flagBits) (count : ℕ) : BitVec (flagBits + countBits) :=
  flags ++ BitVec.ofNat countBits count

theorem packed_toNat {flags : BitVec flagBits} {count : ℕ} (fits : count < 2 ^ countBits) :
    (packed flags count : BitVec (flagBits + countBits)).toNat =
      flags.toNat * 2 ^ countBits + count := by
  have low : (BitVec.ofNat countBits count).toNat = count := by
    rw [BitVec.toNat_ofNat, Nat.mod_eq_of_lt fits]
  rw [packed, BitVec.toNat_append, low, ← Nat.shiftLeft_add_eq_or_of_lt fits, Nat.shiftLeft_eq]

theorem packed_or {flags mask : BitVec flagBits} {count : ℕ} :
    (packed flags count ||| packed mask 0 : BitVec (flagBits + countBits)) =
      packed (flags ||| mask) count := by
  simp only [packed, BitVec.or_append, BitVec.or_zero]

theorem packed_and {flags mask : BitVec flagBits} {count : ℕ} :
    (packed flags count &&& packed mask 0 : BitVec (flagBits + countBits)) =
      packed (flags &&& mask) 0 := by
  simp only [packed, BitVec.and_append, BitVec.and_zero]

theorem packed_and_not {flags mask : BitVec flagBits} {count : ℕ} :
    (packed flags count &&& ~~~packed mask 0 : BitVec (flagBits + countBits)) =
      packed (flags &&& ~~~mask) count := by
  simp only [packed, BitVec.not_append, BitVec.and_append, BitVec.not_zero,
    BitVec.and_allOnes]

theorem packed_inj {flags others : BitVec flagBits} {count total : ℕ}
    (fits : count < 2 ^ countBits) (totalFits : total < 2 ^ countBits) :
    (packed flags count : BitVec (flagBits + countBits)) = packed others total ↔
      flags = others ∧ count = total := by
  constructor
  · intro same
    have values := congrArg BitVec.toNat same
    rw [packed_toNat fits, packed_toNat totalFits] at values
    have counts : count = total := by
      have modulo := congrArg (· % 2 ^ countBits) values
      simpa only [Nat.mul_add_mod_self_right, Nat.mod_eq_of_lt fits,
        Nat.mod_eq_of_lt totalFits] using modulo
    subst counts
    have high : flags.toNat = others.toNat :=
      Nat.eq_of_mul_eq_mul_right (Nat.two_pow_pos countBits) (Nat.add_right_cancel values)
    exact ⟨BitVec.eq_of_toNat_eq high, rfl⟩
  · rintro ⟨rfl, rfl⟩
    rfl

theorem packed_succ {flags : BitVec flagBits} {count : ℕ} (fits : count + 1 < 2 ^ countBits) :
    (packed flags count : BitVec (flagBits + countBits)) + 1#(flagBits + countBits) =
      packed flags (count + 1) := by
  apply BitVec.eq_of_toNat_eq
  have high := flags.isLt
  have room : flags.toNat * 2 ^ countBits + 2 ^ countBits ≤ 2 ^ (flagBits + countBits) := by
    rw [Nat.pow_add, ← Nat.succ_mul]
    exact Nat.mul_le_mul_right _ high
  have small : 1 < 2 ^ (flagBits + countBits) := by omega
  rw [BitVec.toNat_add, packed_toNat (by omega), packed_toNat fits, BitVec.toNat_ofNat,
    Nat.mod_eq_of_lt small, Nat.mod_eq_of_lt (by omega), Nat.add_assoc]

theorem packed_pred {flags : BitVec flagBits} {count : ℕ} (fits : count + 1 < 2 ^ countBits) :
    (packed flags (count + 1) : BitVec (flagBits + countBits)) - 1#(flagBits + countBits) =
      packed flags count := by
  rw [← packed_succ fits, BitVec.add_sub_cancel]

end Foundation
