import Mathlib.Data.List.Induction
import Mathlib.Logic.Function.Basic
import Mathlib.Order.Basic

namespace Foundation.Lifetimes

/-! # What was constructed where

Cells of raw storage in which objects are constructed and destroyed.  A history is
sound when no object is constructed over a living one and none is destroyed that
was not constructed.
-/

inductive Change (Cell : Type*) where
  | construct (cell : Cell)
  | destruct (cell : Cell)
deriving DecidableEq

variable {Cell : Type*} [DecidableEq Cell]

/-- The cells with a living object after one more change. -/
def after (held : Cell → Bool) : Change Cell → Option (Cell → Bool)
  | .construct cell => if held cell then none else some (Function.update held cell true)
  | .destruct cell => if held cell then some (Function.update held cell false) else none

/-- The cells with a living object, `none` when the history is not sound. -/
def history (changes : List (Change Cell)) : Option (Cell → Bool) :=
  changes.foldlM after fun _ => false

variable {changes more : List (Change Cell)} {held : Cell → Bool} {cell : Cell}

@[simp] theorem history_nil : history ([] : List (Change Cell)) = some fun _ => false := rfl

theorem history_append :
    history (changes ++ more) = (history changes).bind fun held => more.foldlM after held :=
  List.foldlM_append ..

theorem history_concat (change : Change Cell) :
    history (changes ++ [change]) = (history changes).bind fun held => after held change := by
  rw [history_append]
  simp

/-- A cell that has no object may get one. -/
theorem history_construct (known : history changes = some held) (empty : held cell = false)
    (constructs : Bool) :
    history (changes ++ if constructs then [.construct cell] else []) =
      some (Function.update held cell constructs) := by
  cases constructs with
  | true => simp [history_concat, known, after, empty]
  | false =>
      rw [Function.update_eq_self_iff.mpr empty.symm]
      simpa using known

/-- The object of a cell is destroyed if there is one. -/
theorem history_destruct (known : history changes = some held) (cell : Cell) :
    history (changes ++ if held cell then [.destruct cell] else []) =
      some (Function.update held cell false) := by
  cases alive : held cell with
  | true => simp [history_concat, known, after, alive]
  | false =>
      rw [Function.update_eq_self_iff.mpr alive.symm]
      simpa using known

theorem history_overwrites (known : history changes = some held) (full : held cell = true) :
    history (changes ++ [.construct cell]) = none := by
  simp [history_concat, known, after, full]

/-- As many objects of a cell have been destroyed as were constructed, but for the one that
lives. -/
theorem count_of_history (known : history changes = some held) (cell : Cell) :
    changes.count (.construct cell) =
      changes.count (.destruct cell) + (held cell).toNat := by
  induction changes using List.reverseRecOn generalizing held with
  | nil =>
      cases known
      rfl
  | append_singleton changes change ih =>
      rw [history_concat] at known
      obtain ⟨before, sound, changed⟩ := Option.bind_eq_some_iff.mp known
      have counted := ih sound
      rw [List.count_append, List.count_append]
      cases change with
      | construct other =>
          obtain ⟨empty, same⟩ := Option.ite_none_left_eq_some.mp changed
          cases same
          by_cases here : cell = other
          · subst here
            simp_all
          · simp [Function.update_of_ne here, counted, Ne.symm here]
      | destruct other =>
          obtain ⟨full, same⟩ := Option.ite_none_right_eq_some.mp changed
          cases same
          by_cases here : cell = other
          · subst here
            simp_all
          · simp [Function.update_of_ne here, counted, Ne.symm here]

end Foundation.Lifetimes
