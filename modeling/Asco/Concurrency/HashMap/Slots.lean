import Mathlib.Algebra.Group.Nat.Even
import Mathlib.Data.Nat.Prime.Basic
import Asco.Concurrency.HashMap

namespace Asco.Concurrency.HashMap

open Foundation

/-! # The slots a key visits -/

variable {K : Type*} {hash : K → UInt64} {key : K} {size i j index : ℕ}

/-- The bucket counts a map can have. -/
def WellSized (size : ℕ) : Prop := ∃ rehashes, size = initialCapacity * 2 ^ rehashes

theorem WellSized.initial : WellSized initialCapacity := ⟨0, rfl⟩

theorem WellSized.double (sized : WellSized size) : WellSized (2 * size) := by
  obtain ⟨rehashes, rfl⟩ := sized
  exact ⟨rehashes + 1, by rw [pow_succ, Nat.mul_left_comm, Nat.mul_comm 2]⟩

theorem WellSized.eq_two_pow (sized : WellSized size) : ∃ exponent, size = 2 ^ (exponent + 1) := by
  obtain ⟨rehashes, rfl⟩ := sized
  have capacity : initialCapacity = 2 ^ 6 := rfl
  exact ⟨5 + rehashes, by rw [capacity, ← pow_add]; congr 1; omega⟩

theorem WellSized.pos (sized : WellSized size) : 0 < size := by
  obtain ⟨exponent, rfl⟩ := sized.eq_two_pow
  exact Nat.two_pow_pos _

theorem hash2_odd (hash : K → UInt64) (key : K) : Odd (hash2 hash key).toNat := by
  have bit : (hash2 hash key).toNat.testBit 0 = true := by
    simp [hash2, UInt64.toNat_or]
  rw [Nat.odd_iff]
  simpa only [Nat.testBit_zero, decide_eq_true_eq] using bit

theorem WellSized.coprime_of_odd {step : ℕ} (sized : WellSized size) (odd : Odd step) :
    (step % size).Coprime size := by
  obtain ⟨exponent, rfl⟩ := sized.eq_two_pow
  have coprime := (Nat.coprime_two_right.mpr odd).pow_right (exponent + 1)
  rw [Nat.Coprime, ← Nat.gcd_rec]
  exact coprime.symm

theorem WellSized.coprime (sized : WellSized size) (hash : K → UInt64) (key : K) :
    ((hash2 hash key).toNat % size).Coprime size := sized.coprime_of_odd (hash2_odd hash key)

theorem slot_lt (sized : WellSized size) (hash : K → UInt64) (key : K) (i : ℕ) :
    slot hash size key i < size := probe_lt sized.pos i

theorem slot_injective (sized : WellSized size) (first : i < size) (second : j < size)
    (same : slot hash size key i = slot hash size key j) : i = j :=
  probe_injective (sized.coprime hash key) first second same

theorem exists_slot (sized : WellSized size) (hash : K → UInt64) (key : K)
    (bound : index < size) : ∃ i < size, slot hash size key i = index :=
  exists_probe (sized.coprime hash key) bound

/-- The product and the sum of the source wrap around without effect. -/
theorem probe_word {size first step i : UInt64} (divides : size.toNat ∣ 2 ^ 64) :
    ((first % size + i * (step % size)) % size).toNat =
      probe (first.toNat % size.toNat) (step.toNat % size.toNat) size.toNat i.toNat := by
  rw [UInt64.toNat_mod, UInt64.toNat_add, UInt64.toNat_mul, UInt64.toNat_mod, UInt64.toNat_mod,
    Nat.add_mod_mod]
  exact probe_wrap divides i.toNat

/-- The arithmetic of `do_insert`, in the words of the source. -/
theorem slot_word {size i : UInt64} (divides : size.toNat ∣ 2 ^ 64) :
    ((hash1 hash key % size + i * (hash2 hash key % size)) % size).toNat =
      slot hash size.toNat key i.toNat := probe_word divides

end Asco.Concurrency.HashMap
