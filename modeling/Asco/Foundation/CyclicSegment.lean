import Mathlib.Algebra.Group.Fin.Basic
import Mathlib.Data.Fin.Basic
import Mathlib.Tactic.Abel

namespace Foundation

/-! # Segments of a cyclic index range

The indices of a ring of `n + 1` slots, read from a first index up to but not
including a last one.  Equal ends mean the empty segment, so a segment never has
more than `n` indices.
-/

/-- The first index exists: the ring has at least one slot. -/
instance (priority := high) neZeroSlots (n : ℕ) : @NeZero ℕ Zero.ofOfNat0 (n + 1) :=
  ⟨n.succ_ne_zero⟩

variable {n : ℕ} {first last index : Fin (n + 1)}

/-- The number of steps from `first` to `last`. -/
@[irreducible]
def span (first last : Fin (n + 1)) : ℕ := (last - first).val

def Within (first last index : Fin (n + 1)) : Prop := span first index < span first last

instance : Decidable (Within first last index) := inferInstanceAs (Decidable (_ < _))

def segmentFrom (first : Fin (n + 1)) : ℕ → List (Fin (n + 1))
  | 0 => []
  | count + 1 => first :: segmentFrom (first + 1) count

def segment (first last : Fin (n + 1)) : List (Fin (n + 1)) := segmentFrom first (span first last)

@[simp] theorem span_self : span first first = 0 := by simp [span]

theorem span_le : span first last ≤ n := by
  rw [span]
  exact Nat.lt_succ_iff.mp (last - first).isLt

theorem span_eq_zero : span first last = 0 ↔ first = last := by
  rw [span, Fin.val_eq_zero_iff, sub_eq_zero, eq_comm]

theorem span_inj : span first index = span first last ↔ index = last := by
  rw [span, span, Fin.val_inj, sub_left_inj]

theorem val_succ {offset : Fin (n + 1)} (room : offset + 1 ≠ 0) :
    (offset + 1).val = offset.val + 1 := by
  rw [Fin.val_add_one]
  split
  · rename_i full
    exact absurd (by simp [full]) room
  · rfl

theorem span_succ_last (room : last + 1 ≠ first) : span first (last + 1) = span first last + 1 := by
  have moved : last + 1 - first = last - first + 1 := by abel
  rw [span, span, moved]
  refine val_succ ?_
  rw [← moved]
  exact sub_ne_zero.mpr room

theorem span_succ_first (nonempty : first ≠ last) :
    span first last = span (first + 1) last + 1 := by
  have moved : last - first = last - (first + 1) + 1 := by abel
  rw [span, span, moved]
  refine val_succ ?_
  rw [← moved]
  exact sub_ne_zero.mpr (Ne.symm nonempty)

theorem span_pred : span (first + 1) first = n := by
  have moved : first - (first + 1) = -1 := by abel
  rw [span, moved]
  simp

@[simp] theorem not_within_last : ¬ Within first last last := Nat.lt_irrefl _

@[simp] theorem not_within_self : ¬ Within first first index := by simp [Within]

theorem within_first : Within first last first ↔ first ≠ last := by
  rw [Within, span_self, Nat.pos_iff_ne_zero, ne_eq, span_eq_zero]

theorem within_succ_last (room : last + 1 ≠ first) :
    Within first (last + 1) index ↔ Within first last index ∨ index = last := by
  rw [Within, Within, span_succ_last room, Nat.lt_succ_iff_lt_or_eq, span_inj]

theorem within_succ_first (nonempty : first ≠ last) :
    Within (first + 1) last index ↔ Within first last index ∧ index ≠ first := by
  by_cases same : index = first
  · subst same
    have bounded : span (index + 1) last ≤ n := span_le
    simp only [Within, span_pred, ne_eq, not_true_eq_false, and_false, iff_false]
    omega
  · have index_eq := span_succ_first (Ne.symm same)
    have last_eq := span_succ_first nonempty
    simp only [Within, ne_eq, same, not_false_eq_true, and_true]
    omega

@[simp] theorem segment_self : segment first first = [] := by simp [segment, segmentFrom]

theorem segment_succ_first (nonempty : first ≠ last) :
    segment first last = first :: segment (first + 1) last := by
  rw [segment, span_succ_first nonempty, segmentFrom, segment]

/-- Induction on the length of a segment, from its first index on. -/
theorem segment_induction (last : Fin (n + 1)) {motive : Fin (n + 1) → Prop} (empty : motive last)
    (step : ∀ first, first ≠ last → motive (first + 1) → motive first) (first : Fin (n + 1)) :
    motive first := by
  generalize counted : span first last = count
  induction count generalizing first with
  | zero =>
      rw [span_eq_zero] at counted
      exact counted ▸ empty
  | succ count ih =>
      have nonempty : first ≠ last := by
        rintro rfl
        simp at counted
      have shorter := span_succ_first nonempty
      exact step first nonempty (ih (first + 1) (by omega))

theorem segment_succ_last (room : last + 1 ≠ first) :
    segment first (last + 1) = segment first last ++ [last] := by
  induction first using segment_induction last with
  | empty => rw [segment_succ_first room.symm, segment_self, segment_self, List.nil_append]
  | step first nonempty ih =>
      have roomAfter : last + 1 ≠ first + 1 := by
        intro same
        exact nonempty (add_right_cancel same).symm
      rw [segment_succ_first room.symm, ih roomAfter, segment_succ_first nonempty, List.cons_append]

theorem mem_segment : index ∈ segment first last ↔ Within first last index := by
  induction first using segment_induction last with
  | empty => simp
  | step first nonempty ih =>
      rw [segment_succ_first nonempty, List.mem_cons, ih, within_succ_first nonempty]
      by_cases same : index = first
      · subst same
        simp [within_first, nonempty]
      · simp [same]

theorem segment_nodup : (segment first last).Nodup := by
  induction first using segment_induction last with
  | empty => simp
  | step first nonempty ih =>
      rw [segment_succ_first nonempty, List.nodup_cons]
      refine ⟨?_, ih⟩
      rw [mem_segment, within_succ_first nonempty]
      simp

theorem segment_length : (segment first last).length = span first last := by
  induction first using segment_induction last with
  | empty => simp
  | step first nonempty ih =>
      rw [segment_succ_first nonempty, List.length_cons, ih, span_succ_first nonempty]

end Foundation
