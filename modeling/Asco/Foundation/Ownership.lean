import Mathlib.Logic.Equiv.Basic

namespace Foundation

/-! # Storage and its owners

One table says what each owner owns and another one what is in each storage.
-/

variable {Owner Storage Content : Type*} {owning : Owner → Option Storage}
  {contents : Storage → Option Content} {owner source : Owner} {storage : Storage}

/-- What has a content has one owner, and what has none has no owner. -/
structure Ownership (owning : Owner → Option Storage) (contents : Storage → Option Content) :
    Prop where
  used : ∀ storage, (contents storage).isSome = true ↔ ∃ owner, owning owner = some storage
  unique : ∀ owner other storage, owning owner = some storage → owning other = some storage →
    owner = other

/-- What an owner has in its storage. -/
def holding (owning : Owner → Option Storage) (contents : Storage → Option Content)
    (owner : Owner) : Option Content :=
  (owning owner).bind contents

namespace Ownership

theorem empty :
    Ownership (fun _ : Owner => none) (fun _ : Storage => (none : Option Content)) :=
  ⟨by simp, by simp⟩

theorem exists_unique (ownership : Ownership owning contents)
    (used : (contents storage).isSome = true) : ∃! owner, owning owner = some storage := by
  obtain ⟨owner, owns⟩ := (ownership.used storage).mp used
  exact ⟨owner, owns, fun other owned => ownership.unique other owner storage owned owns⟩

theorem unowned (ownership : Ownership owning contents) (free : contents storage = none)
    (owner : Owner) : owning owner ≠ some storage := by
  intro owns
  have used := (ownership.used storage).mpr ⟨owner, owns⟩
  simp [free] at used

/-- The others do not own what an owner gives up. -/
theorem others (ownership : Ownership owning contents) (owns : owning owner = some storage)
    {other : Owner} (apart : other ≠ owner) : owning other ≠ some storage :=
  fun owned => apart (ownership.unique other owner storage owned owns)

theorem permute (ownership : Ownership owning contents) (permutation : Equiv.Perm Owner) :
    Ownership (owning ∘ permutation) contents := by
  refine ⟨fun storage => ?_, fun owner other storage owns owned => ?_⟩
  · rw [ownership.used]
    exact permutation.symm.exists_congr_left
  · exact permutation.injective (ownership.unique _ _ storage owns owned)

variable [DecidableEq Owner]

/-- What is handed over changes places with nothing. -/
theorem hand_eq_swap {Item : Type*} {items : Owner → Option Item} (vacant : items owner = none) :
    Function.update (Function.update items owner (items source)) source none =
      items ∘ Equiv.swap owner source := by
  funext other
  by_cases last : other = source
  · subst last
    simp [vacant]
  · by_cases first : other = owner
    · subst first
      simp [last]
    · simp [first, last, Equiv.swap_apply_of_ne_of_ne first last]

theorem hand (ownership : Ownership owning contents) (vacant : owning owner = none) :
    Ownership (Function.update (Function.update owning owner (owning source)) source none)
      contents := by
  rw [hand_eq_swap vacant]
  exact ownership.permute _

omit [DecidableEq Owner] in
theorem holding_vacant (vacant : owning owner = none) : holding owning contents owner = none := by
  simp [holding, vacant]

theorem holding_hand (vacant : owning owner = none) :
    holding (Function.update (Function.update owning owner (owning source)) source none) contents =
      Function.update (Function.update (holding owning contents) owner
        (holding owning contents source)) source none := by
  rw [hand_eq_swap vacant, hand_eq_swap (holding_vacant vacant)]
  rfl

variable [DecidableEq Storage]

theorem acquire (ownership : Ownership owning contents) (vacant : owning owner = none)
    (free : contents storage = none) (content : Content) :
    Ownership (Function.update owning owner (some storage))
      (Function.update contents storage (some content)) := by
  refine ⟨fun other => ?_, fun first second other owns owned => ?_⟩
  · by_cases here : other = storage
    · subst here
      simp only [Function.update_self, Option.isSome_some, true_iff]
      exact ⟨owner, Function.update_self ..⟩
    · rw [Function.update_of_ne here, ownership.used]
      refine exists_congr fun first => ?_
      by_cases same : first = owner
      · subst same
        simp [vacant, Ne.symm here]
      · rw [Function.update_of_ne same]
  · by_cases one : first = owner
    · by_cases two : second = owner
      · exact one.trans two.symm
      · subst one
        rw [Function.update_self] at owns
        rw [Function.update_of_ne two, ← owns] at owned
        exact absurd owned (ownership.unowned free second)
    · rw [Function.update_of_ne one] at owns
      by_cases two : second = owner
      · subst two
        rw [Function.update_self] at owned
        rw [← owned] at owns
        exact absurd owns (ownership.unowned free first)
      · rw [Function.update_of_ne two] at owned
        exact ownership.unique first second other owns owned

theorem holding_acquire (ownership : Ownership owning contents) (free : contents storage = none)
    (content : Content) :
    holding (Function.update owning owner (some storage))
        (Function.update contents storage (some content)) =
      Function.update (holding owning contents) owner (some content) := by
  funext other
  by_cases same : other = owner
  · subst same
    simp [holding]
  · simp only [holding, Function.update_of_ne same]
    cases owns : owning other with
    | none => rfl
    | some kept =>
        have apart : kept ≠ storage := by
          rintro rfl
          exact ownership.unowned free other owns
        simp [apart]

theorem release (ownership : Ownership owning contents) (owns : owning owner = some storage) :
    Ownership (Function.update owning owner none) (Function.update contents storage none) := by
  refine ⟨fun other => ?_, fun first second other firstOwns secondOwns => ?_⟩
  · by_cases here : other = storage
    · subst here
      simp only [Function.update_self, Option.isSome_none, Bool.false_eq_true, false_iff,
        not_exists]
      intro first
      by_cases same : first = owner
      · subst same
        simp
      · rw [Function.update_of_ne same]
        exact ownership.others owns same
    · rw [Function.update_of_ne here, ownership.used]
      refine exists_congr fun first => ?_
      by_cases same : first = owner
      · subst same
        simp [owns, Ne.symm here]
      · rw [Function.update_of_ne same]
  · have stays {one : Owner} (owned : Function.update owning owner none one = some other) :
        owning one = some other := by
      by_cases same : one = owner
      · subst same
        simp at owned
      · rwa [Function.update_of_ne same] at owned
    exact ownership.unique first second other (stays firstOwns) (stays secondOwns)

theorem holding_release (ownership : Ownership owning contents)
    (owns : owning owner = some storage) :
    holding (Function.update owning owner none) (Function.update contents storage none) =
      Function.update (holding owning contents) owner none := by
  funext other
  by_cases same : other = owner
  · subst same
    simp [holding]
  · simp only [holding, Function.update_of_ne same]
    cases kept : owning other with
    | none => rfl
    | some address =>
        have apart : address ≠ storage := by
          rintro rfl
          exact ownership.others owns same kept
        simp [apart]

end Ownership

end Foundation
