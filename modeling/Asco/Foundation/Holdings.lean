import Asco.Foundation.Machine

namespace Foundation

/-! # What the threads of a pool hold

Every local state holds a list of claims on shared resources; `held` counts how
often a claim is held in the whole pool.
-/

variable {Thread Local Claim : Type*} [Fintype Thread] [BEq Claim]
  {claims : Local → List Claim} {locals : Thread → Local} {thread other : Thread} {claim : Claim}

def held (claims : Local → List Claim) (locals : Thread → Local) (claim : Claim) : ℕ :=
  tally (fun place => (claims place).count claim) locals

/-- The holdings as one thread moves and the others stand still. -/
theorem exists_held_others [DecidableEq Thread] (claims : Local → List Claim)
    (locals : Thread → Local) (thread : Thread) :
    ∃ others : Claim → ℕ,
      (∀ claim, held claims locals claim = others claim + (claims (locals thread)).count claim) ∧
      ∀ next claim, held claims (Function.update locals thread next) claim =
        others claim + (claims next).count claim := by
  have split (claim : Claim) : ∃ others, held claims locals claim =
      others + (claims (locals thread)).count claim ∧
        ∀ next, held claims (Function.update locals thread next) claim =
          others + (claims next).count claim :=
    exists_tally_others (fun place => (claims place).count claim) locals thread
  choose others before after using split
  exact ⟨others, before, fun next claim => after claim next⟩

variable [LawfulBEq Claim]

theorem held_pos (member : claim ∈ claims (locals thread)) : 0 < held claims locals claim := by
  let weight := fun place => (claims place).count claim
  have counted : weight (locals thread) ≤ tally weight locals := weight_le_tally thread
  have positive : 0 < weight (locals thread) := List.count_pos_iff.mpr member
  exact positive.trans_le counted

theorem held_eq_zero : held claims locals claim = 0 ↔ ∀ thread, claim ∉ claims (locals thread) := by
  rw [held, tally_eq_zero]
  exact forall_congr' fun thread => List.count_eq_zero

end Foundation
