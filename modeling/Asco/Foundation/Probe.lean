import Mathlib.Data.Fintype.EquivFin
import Mathlib.Data.Nat.ModEq

namespace Foundation

/-! # Probe sequences

The slots a search visits in a table of `size` slots: it begins at `base` and
moves on by `step`.  A step that has no common factor with the size leads to
every slot exactly once.
-/

variable {base step size first second index : ℕ}

def probe (base step size offset : ℕ) : ℕ := (base + offset * step) % size

theorem probe_lt (positive : 0 < size) (offset : ℕ) : probe base step size offset < size :=
  Nat.mod_lt _ positive

theorem probe_injective (coprime : step.Coprime size) (firstBound : first < size)
    (secondBound : second < size)
    (same : probe base step size first = probe base step size second) :
    first = second := by
  have shifted : base + first * step ≡ base + second * step [MOD size] := same
  have scaled : first * step ≡ second * step [MOD size] := Nat.ModEq.add_left_cancel' base shifted
  have congruent : first ≡ second [MOD size] :=
    Nat.ModEq.cancel_right_of_coprime (Nat.coprime_comm.mp coprime) scaled
  rw [Nat.ModEq, Nat.mod_eq_of_lt firstBound, Nat.mod_eq_of_lt secondBound] at congruent
  exact congruent

theorem exists_probe (coprime : step.Coprime size) (bound : index < size) :
    ∃ offset < size, probe base step size offset = index := by
  have positive : 0 < size := by omega
  let visit : Fin size → Fin size :=
    fun offset => ⟨probe base step size offset, probe_lt positive _⟩
  have injective : Function.Injective visit := by
    intro first second same
    have sameSlot := congrArg Fin.val same
    exact Fin.ext (probe_injective coprime first.isLt second.isLt sameSlot)
  obtain ⟨offset, visited⟩ := Finite.injective_iff_surjective.mp injective ⟨index, bound⟩
  exact ⟨offset, offset.isLt, congrArg Fin.val visited⟩

/-- Machine words wrap around without effect when their number is a multiple of the size. -/
theorem probe_wrap {words : ℕ} (divides : size ∣ words) (offset : ℕ) :
    (base + offset * step) % words % size = probe base step size offset :=
  Nat.mod_mod_of_dvd _ divides

end Foundation
