import Mathlib.Data.Nat.Notation
import Mathlib.Logic.Function.Basic

namespace Foundation.FixedArray

/-! # Arrays of fixed size

A store behind the end of the array is undefined, `none` here.
-/

variable {size : ℕ} {Value : Type*}

def store (array : Fin size → Value) (index : ℕ) (value : Value) : Option (Fin size → Value) :=
  if inside : index < size then some (Function.update array ⟨index, inside⟩ value) else none

/-- The values one after another from an index on. -/
def copyFrom (array : Fin size → Value) (index : ℕ) : List Value → Option (Fin size → Value)
  | [] => some array
  | value :: rest => (store array index value).bind fun next => copyFrom next (index + 1) rest

variable {array : Fin size → Value} {index : ℕ} {value : Value} {values more : List Value}

theorem store_of_lt (inside : index < size) :
    store array index value = some (Function.update array ⟨index, inside⟩ value) := dif_pos inside

theorem store_of_le (outside : size ≤ index) : store array index value = none :=
  dif_neg (Nat.not_lt.mpr outside)

theorem copyFrom_append :
    copyFrom array index (values ++ more) =
      (copyFrom array index values).bind fun next =>
        copyFrom next (index + values.length) more := by
  induction values generalizing array index with
  | nil => rfl
  | cons value rest ih =>
      simp only [List.cons_append, copyFrom, Option.bind_assoc, List.length_cons]
      congr 1
      funext next
      rw [ih, Nat.add_right_comm, Nat.add_assoc]

/-- Values that fit in are where they were put, and the others as they were. -/
theorem copyFrom_exists (array : Fin size → Value) (fits : index + values.length ≤ size) :
    ∃ copied, copyFrom array index values = some copied ∧ ∀ place : Fin size,
      copied place =
        if place.val < index then array place
        else (values[place.val - index]?).getD (array place) := by
  induction values generalizing array index with
  | nil => exact ⟨array, rfl, fun place => by simp⟩
  | cons value rest ih =>
      rw [List.length_cons] at fits
      have inside : index < size := by omega
      obtain ⟨copied, copies, found⟩ :=
        @ih (index + 1) (Function.update array ⟨index, inside⟩ value) (by omega)
      refine ⟨copied, by rw [copyFrom, store_of_lt inside, Option.bind_some, copies],
        fun place => ?_⟩
      rw [found]
      rcases Nat.lt_trichotomy place.val index with before | here | behind
      · have apart : place ≠ ⟨index, inside⟩ := fun same => by simp [same] at before
        rw [if_pos (by omega), if_pos before, Function.update_of_ne apart]
      · obtain rfl : place = ⟨index, inside⟩ := Fin.ext here
        simp
      · have apart : place ≠ ⟨index, inside⟩ := fun same => by simp [same] at behind
        have next : place.val - index = place.val - (index + 1) + 1 := by omega
        rw [if_neg (by omega), if_neg (by omega), Function.update_of_ne apart, next,
          List.getElem?_cons_succ]

end Foundation.FixedArray
