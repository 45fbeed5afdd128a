import Mathlib.Algebra.Order.Ring.Int
import Mathlib.Data.Nat.Notation

namespace Foundation.Signed

/-! # Signed arithmetic that must not overflow

An operation on 64-bit signed integers whose exact result is none of them is
undefined, `none` here.  A conversion from an unsigned word keeps the bits.
-/

def InRange (exact : ℤ) : Prop := -2 ^ 63 ≤ exact ∧ exact < 2 ^ 63

instance (exact : ℤ) : Decidable (InRange exact) :=
  inferInstanceAs (Decidable (_ ∧ _))

def checked (exact : ℤ) : Option Int64 :=
  if InRange exact then some (.ofInt exact) else none

def neg (word : Int64) : Option Int64 := checked (-word.toInt)

def add (one other : Int64) : Option Int64 := checked (one.toInt + other.toInt)

variable {word one other : Int64} {exact : ℤ}

theorem inRange_toInt (word : Int64) : InRange word.toInt := ⟨word.le_toInt, word.toInt_lt⟩

theorem checked_eq_some_iff : checked exact = some word ↔ word.toInt = exact := by
  constructor
  · intro computed
    obtain ⟨inside, same⟩ := Option.ite_none_right_eq_some.mp computed
    cases same
    exact Int64.toInt_ofInt_of_le inside.1 inside.2
  · rintro rfl
    rw [checked, if_pos (inRange_toInt word), Int64.ofInt_toInt]

theorem checked_isSome_iff : (checked exact).isSome = true ↔ InRange exact := by
  rw [checked]
  split
  · simpa
  · simpa

theorem neg_eq_some_iff : neg word = some other ↔ other.toInt = -word.toInt := checked_eq_some_iff

theorem add_eq_some_iff {sum : Int64} :
    add one other = some sum ↔ sum.toInt = one.toInt + other.toInt := checked_eq_some_iff

/-- The least integer is the only one without a negation. -/
theorem neg_isSome_iff : (neg word).isSome = true ↔ word.toInt ≠ -2 ^ 63 := by
  rw [neg, checked_isSome_iff, InRange]
  have inside := inRange_toInt word
  unfold InRange at inside
  omega

theorem nonneg_iff : 0 ≤ word ↔ 0 ≤ word.toInt := Int64.le_iff_toInt_le

theorem neg_iff : word < 0 ↔ word.toInt < 0 := Int64.lt_iff_toInt_lt

/-- A word below half the range keeps its value. -/
theorem toInt_ofBitVec_of_lt {bits : BitVec 64} (small : bits.toNat < 2 ^ 63) :
    (Int64.ofBitVec bits).toInt = bits.toNat := by
  rw [Int64.toInt_ofBitVec, BitVec.toInt_eq_toNat_of_lt]
  omega

theorem toNat_toBitVec_of_nonneg (low : 0 ≤ word.toInt) :
    (word.toBitVec.toNat : ℤ) = word.toInt := by
  rw [← Int64.toInt_toBitVec] at low ⊢
  rw [BitVec.toInt_eq_toNat_of_msb]
  rw [BitVec.msb_eq_toInt]
  exact decide_eq_false (not_lt.mpr low)

/-- The unsigned sum of a position and a count is the position behind them exactly if that
position exists. -/
theorem toInt_advance_iff (low : 0 ≤ word.toInt) (count : BitVec 64) :
    (Int64.ofBitVec (word.toBitVec + count)).toInt = word.toInt + count.toNat ↔
      word.toInt + count.toNat < 2 ^ 63 := by
  constructor
  · intro arrived
    rw [← arrived]
    exact Int64.toInt_lt _
  · intro small
    have value := toNat_toBitVec_of_nonneg low
    have sum : (word.toBitVec + count).toNat = word.toBitVec.toNat + count.toNat := by
      rw [BitVec.toNat_add, Nat.mod_eq_of_lt]
      omega
    rw [toInt_ofBitVec_of_lt (by omega), sum]
    omega

end Foundation.Signed
